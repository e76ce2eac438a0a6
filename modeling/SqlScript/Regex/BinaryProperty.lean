import SqlScript.Regex.NamedTable

/-!
# Binary properties

The properties of Unicode 16 that a character has or lacks and that do not follow from others, by
their names.
-/

namespace SqlScript.Regex

/-- The characters with each property. -/
def binaryPropertyTables : List NamedTable := [
  (["ahex", "asciihexdigit"], ["BWjIfBBf"]),
  (["bidic", "bidicontrol"], ["CIEaJVMbBBeCEd"]),
  (["bidim", "bidimirrored"], [
    "BObTaCaBDaCaBEaCaBUaQaFMTdCUObDQRbLbCDbPbGWaHLdEfEaEbEdCdCaCaFiGaCrGdKbCaChCbfDdGaKbDsGbKeDb",
    "FxDpJdVbIbBPUnCXaDdCbCcGdGcEnPOvDfCnJaIfEaFeCbDeFaCcDbLfDbNsCdDaCaDaCdGbHcZbMbFdCbDbFbqDhCbn",
    "GaCaEeGcFaEeCaJXaTWdEbCbPbDjBShQMjDhDACSfGbGHbTaCaBDaCaBEaCaCbCbDDPOaCGaCGaCGaCGa"]),
  (["dash"], ["BTaCAVaCAaFKKaBNQaDBEfCKaBOaQaPBaEOJaDaBGbFaBDaRFaUaEIaCZWBbBMaLaGOaFLPaMHa"]),
  (["dep", "deprecated"], ["MRaBYWaDKUaCaDCKbDIKfBAWbBZRYLa"]),
  (["dia", "diacritic"], [
    "DQaCaCUaHaFaDbTKgcChGfSbFaKbJUeICaCEbsCaCbCbCaFChFbFFbFbEcCQbaDOkCHkBJbEXhBQjRbbCKaRaEdBDaCXa",
    "RaEHaRaEHaRaBWcCJaRaIaEQaEHaRaEHaRaEGbRaEVaEIaNfCaEEaOeCYbBCaCaCaFbCPcCbCLaEJaCbBPbFeBAgCaLb",
    "BBEcBKNbBFaFTkKaNKcLHaVhDaBXoDkEBaQaBNiCDbCHaMbCPbCNfDFyFaHaDcBZckBXbjGlBMkREaCcMcOcOcObEXLc",
    "MGaTNfECdDSaBSMLaNbCaBDbDFbPbhDZcEGbNaBMaFWaBCrCGdBLaDSaNaBLaFUcCOdCAaDXeKcEZbBDZTaBDQpKLaCa",
    "BWaBUbCQaBDLaBTOfCbpCiYOcFaGKbWAfBNaBBePKcCTkBYdHLaBQaCVbERbCLaCZaKcEBbGXbDDbRaZgEeDMcCbObDSa",
    "EaEUbJSbEXaEPbEMaKKbJZbFaGBaDGaTaDEaQGaJZaCbDEaQKbYaHYBoQZQaDSBeCIgVTbVBqDDbYGDdCgCbLTIbtDw",
    "UZcEfJhDgBFdFMXcjHNgOMaCKdBDNbBCJgEGcCc"]),
  (["ebase", "emojimodifierbase"], [
    "OLHaIMaRdGSJWaCJcDaDcEObDkWsEaFcCcIaCaZaHUbFaWaFbGTcEeDGaRcKaMaWEaDaJhHaKjDcCFaCKbCbCaScCmIWc",
    "BRi"]),
  (["ecomp", "emojicomponent"], ["BJaHaGjMBKaIGaDFTSaDOIXzTOeCEBdBSVURdr"]),
  (["emod", "emojimodifier"], ["HHIXe"]),
  (["emoji"], [
    "BJaHaGjEIaFaLYSaNaIJaXaDNfQbOEbNaGLaBAkFcHSaIYbLaKaCHdCeKaDaDbDaFaDaCbDaEaEbJcGaCaGlMbDaCbCa",
    "TaDbTfCaCbEbGaDbFbMbGbDaGbCaCbVbGfCdDaFaDaDfCaDaCaCaHaEaHaLbQaDaFaCaFcCaMbBXcKaPaPaOJbRWcUb",
    "CAaFaBVVaNaXEaCaGMRRaHVaGFbNbPaDjCYzCbYaVaDiWbGTbhDehDbCcDdeDcCkcCckMfCxIbDhNaDdDaFbObDaJbKa",
    "GcNcJcDaCaFaHaEaHdhBXcrGhDcFjEaCbEaDjIUlFaKYbuCjChcEJmEjGcdIoDkHi"]),
  (["epres", "emojipresentation"], [
    "NHQbHYdEaDaUCbWbBZlBSaUaOaJbSbGbJaGaWaIbCaFaDaIaFbBDaBKaCaFcCaCKcZaPaBHCbCAaFaGPLFaHVaHJaDj",
    "CYzCaZaVaDeCcWbGTbgNiCcrCvNbqFeNqEaEcsCaCheDckOdCxTaBBbOaDJdgBXcrHaEcDcFdMbIiIUlFaKYbuCjChc",
    "EJmEjGcdIoDkHi"]),
  (["ext", "extender"], [
    "HBaURbBHVaRAaYHaFIaDMaBCZaEYaDNGaCFaXOaPJaCRaHKKaBSeEAbDQcBQBVaCGTaBLBaXaFIaEFaWbBFZWaDBLb",
    "CFCaBCaFaBVCaLIaENbTFcBVKaBEOGbBTLbCaBQYBbBUGaBGVc"]),
  (["extpict", "extendedpictographic"], [
    "GNaFaLYSaNaIJaXaDNfQbOEbNaDSaCTaBAkFcHSaIYbLaKaCHdCfClCejLenDkCaCaHaEaHaLbQaDaFaCaFcCaMeBUcKa",
    "PaPaOJbRWcUbCAaFaBVVaNaXEaCaGMRNjvOcBGaCJfNbPaDjTceBCoLaVaDiCdKqrGmfJkfBXexENlDIbqNdCFhLfBPh",
    "BFddNbuCjCqyJXbnh"]),
  (["grlink", "graphemelink"], [
    "DNPaEYaEYaEYaEYaEYaEYaEYaEGbRaEVaEIaEYaHUaGZbCPMbBFaGCaZEaIUaDYbCTbGQUaBUKLaBMaFWaFNaEFaLYa",
    "JNaBJSSaCHJaBQaPaCGaESbFKaENaGZaDVaEZcEKaEYaJTaEYaEPaENaKKaKAbGGaDGaTaDEaQGaKBbDEaQKbYZDa"]),
  (["hex", "hexdigit"], ["BWjIfBBfDSLMjIfBBf"]),
  (["hyphen"], ["BTaEYaBVXaHAAaDBEbFICaBCMaCZUMaGOaDKa"]),
  (["idcompatmathcontinue"], ["GWbGaMAHaEkCoOIaFaXaGJJFaBAaBGaBAaBGaBAaBGaBAaBGaBAa"]),
  (["idcompatmathstart"], ["MWWaFaXaGJJFaBAaBGaBAaBGaBAaBGaBAaBGaBAa"]),
  (["ideo", "ideographic"], [
    "SEWbBAiPcBLEjtnCNbfbjBHSJobDebBSILaBCjbzJbvpBQjNUMpfBDEJclfbBHgdtHinDinpPlbkQxxDQXuvCFZhhy",
    "Ggff"]),
  (["idsb", "idsbinaryoperator"], ["SEAbDjTEa"]),
  (["idst", "idstrinaryoperator"], ["SECb"]),
  (["idsu", "idsunaryoperator"], ["SEOb"]),
  (["joinc", "joincontrol"], ["MDOb"]),
  (["loe", "logicalorderexception"], ["FKIeEUeEDTcDaCCXNbDaCb"]),
  (["mcm", "modifiercombiningmark"], ["CKIbDaFCaHaEbSObCcEaBGa"]),
  (["nchar", "noncharactercodepoint"], [
    "DSDCbfUHbDSYPbDSYPbDSYPbDSYPbDSYPbDSYPbDSYPbDSYPbDSYPbDSYPbDSYPbDSYPbDSYPbDSYPbDSYPbDSYPb"]),
  (["oalpha", "otheralphabetic"], [
    "BGFaBEmWFnCaCbCbCaCVkBXmCgRaDYgFdDbFaBKaBFpDZkDYbEiCcCdEDaCJlEgHtCDbDoCbGcLbBEcCHgDbDbLaLbBEc",
    "CHeFbDbFaBFbEaMcCHhCcCbWbXcFcCHgDbDbKbLbBFaCIeEcCcLaBPeCGgCcCcJbMbBEcCHgCcCcJbMbQaNdCHgCcCcLa",
    "LbBEcCYfCaChTbCKaDgTaDWaDfCbRaGIsKkCbjEHlCaDdYdFcCcDgEdOlCaLdCLPbBFbBFbBFbCPsHHbBJaEPlFiIPe",
    "CGjDtCXbMcBYeBXoCJcBFiDbCGkBZsPXbhCOObzDKHbfBTQBhBJbNRaJaYeDLbBZpCaCGaBNeBDlBUdBXlBMaCQnNaJb",
    "BUcBZaCcDbGaBTeGaJEhBDZWaDEEeCMHcCbGdBEJdCOaMKbDCaKAcCCnBUbMcBUiKaCKcBLlTbCGcBXmPbDPiDaHaDa",
    "GCjYdCHgDbDbLaLbDHiCaDaCdCbEAmCcEDrJEgDgBEbDFoCaEDkEAnJYmJOfCbDbEaCaFNgDfFaBDjBReCdTkBVnPShCg",
    "DGvCnETfEaCbCcCaEaCPeCbCdNLdKbCaBXgEcYYOqFJDaCccIdDQbBDAZaNKKgCqDgCbCeDXaDHWaCZXzHzHz"]),
  (["odi", "otherdefaultignorablecodepoint"], ["BGPaFIMbCKIbDHOaGLJaDACQaDCiBWMIIaCbdDTexJHfil"]),
  (["ogrext", "othergraphemeextend"], [
    "DRYaZaNVaZaDZaZaIZaCaFbCbKbEAaZaEQaQaDMSaBFaBNLaGaCaGbDYaCUbBOJaGCWbBTWUaEFaBGNMbGWNaENaKFaPa",
    "KaDTaKaDaCcGaIRaNaJIaKDaYKaNaCHGaBEOLbBKXObHfBTLBAdr"]),
  (["oidc", "otheridcontinue"], ["HBaBBSaGAKiCLDaCJAbGKSaDAEKa"]),
  (["oids", "otheridstart"], ["JHLbDGKaWaFVXb"]),
  (["olower", "otherlowercase"], [
    "GOaQaTIiIbBFeDTaCBaFDAaEQAckOaBJbkBAOaOaRmIEpBGRzCWPbBUGLbIDaFAcEbBHJdKaBIWTaDcCbpCiDDZIcj"]),
  (["omath", "othermath"], [
    "DQaBHYcDaBBbDbKQZaBCcMaBHdZbPbCOmFaEbFeTaFaDjCaEeHaEbDbCcCfEdGeCYeDdCbCbCaCeDbFbFrDbCaCgCaHb",
    "LFdGNbCaZaSaREbNiGeGbDbEePaCaDfZbCGaCaBEdKbNFbBGjPOvCMdBHbDCLGaCaFaIEaCaDCOWdgCcsCbDaDbDdClCa",
    "CgCcmCdDhCgCbbCdCeCaEgCnbDyCyCbeCyCbeCyCbeCyCbeCyChDbxIIRdCbaCbCaDaCjCdCaCaHaFaCaCaCcCbCaDaCa",
    "CaCaCaCbCaDdCgCdCdCaCjCqGcCeCq"]),
  (["oupper", "otheruppercase"], ["MQQpBGHzGSIZzHzHz"]),
  (["patsyn", "patternsyntax"], [
    "BHoLgBBdCaBBdBJgCaCbCaCbFaFaEaYaBGaLUFxJoDsCjLUbbrGFyfBFbrnTTexOWcFyQaCZRAbKCb"]),
  (["patws", "patternwhitespace"], ["JeTaDXaLYNbZb"]),
  (["pcm", "prependedconcatenationmark"], ["CHCfIIaBYaOVbDDaDVXZaQa"]),
  (["qmark", "quotationmark"], ["BIaFaFCaQaLWVhBAbFIEaRQdOcDABQdHIaFaDNb"]),
  (["radical"], ["RPWzCdkNif"]),
  (["ri", "regionalindicator"], ["HGOKz"]),
  (["sd", "softdotted"], [
    "EBbHPaKWaBFaCBaVaMJaDVaCaJMOaCAaOaEaFDaGCaQGaIHbEGHaGELIbBZbBZbBZbBZbBZbBZbBZbBZbBZbBZbBZbBZb",
    "DFZaLUbBBa"]),
  (["sterm", "sentenceterminal"], [
    "BHaNaRaCACaFScGZaBScJNaCKaCaEbLIbCPXbBELaFbBDUaHRbGCbBUaGaMDbNRdGHbLbDbBEcHGbCObBJXaYbKcEUYc",
    "LVaOaXbQOaBSHXaKLbIUaEaOTbDJbDSaFXbFScFPbJQaBFCXaDbCIaEbGOaNaRaCOaEDXbBXEeBTdHIbEOdEYcFAbHaRb",
    "DLbCbEFaLNbEObOKbGoECbJQcTYaCaJSbDKbQFbBARbCXbBCMCbFEaCObMaVIbLLaBDOHaLINa"]),
  (["term", "terminalpunctuation"], [
    "BHaLaCaMbEaBFZaJaTUaCGaCVaPaCcGZaBSkCaJCbCDfChBGaKCbBWVbGRaFfMAbBEKhBDUaEVcCUbGCcEaBOdDbMDb",
    "NRdGHbLbCcBEcHGeCLbBJXaYbKcEUYcLVaOaFaLaCbEbQNbBSHWbKKcIUeOTbDJbDSaFWcFScEYaRbJQaBFCXaDbCGcCd",
    "GOaLaCaMbEaCOaDaBPRaBXaBSPaHSaLZbFXfCRfDMdBKReBTdHIgEJdEYcFAbHaRbDLeEFaLNbEOcNbNVdEoECbJQcTYa",
    "CaJSbDKbFbPZcBUaYWbCXbBYYeBANAbFEaCOcLaVIbLKbBDOHaLIMd"]),
  (["uideo", "unifiedideograph"], [
    "TSAjtnCNbfbjBICTbCaCbLaCaCbDcDVEDclfbBHgdtHinDinpPlbkQxxGRRhhyGgff"]),
  (["vs", "variationselector"], ["JCTcCaDJCBpBWNKZjf"])]

end SqlScript.Regex
