import SqlScript.Regex.NamedTable

/-!
# General categories

The general categories of Unicode 16 by their names, but for those that follow from the letters, the
numerals and the other categories.
-/

namespace SqlScript.Regex

/-- The characters of each category. -/
def categoryTables : List NamedTable := [
  (["lt", "titlecaseletter"], ["RLaDaDaBNaLFIhJhJhNaQaBWa"]),
  (["lm", "modifierletter"], [
    "BAMrFlPeIaCaFEaGaSLaIXaGJbKKbFaBGaKaEaGFaGMaBVPaEYaVUaCPNaEEaXOaRXfGTckOaBJbkBAOaOaRmEMYbJIa",
    "HKaSCaBSeGaDUbDQcBQBVaBWDfKLaELaBDbESiDDaYaECcEbSCaXaFIaEFaWbEAdKaBFVJaBUbCZPfCbpCiCCYaBHa",
    "BJNTdTPcBPbVFmCNbCaYGRdCgCbSGOcjHUgBKGaBRCa"]),
  (["mn", "nonspacingmark"], [
    "BDOehKQeKGbsCaCbCbCaCVkBXuRaDYgDfDbCdBKaBFbaDOkCHiKaZdCiCcCeBScCIiBRxCbfCEaCaFhFaEgLbBEaCHaFd",
    "JaVbBBaDbCGaFbFbDcEaBFbEaMbCGaFeCbFaVbXfCaCHaDaCdJaIbMbBFaCKaNaBZaEaCEaCcGcCdIbMbBEaCHaDaHaGb",
    "VbBDbCGbFdJaVbBEaCVaIcCaDNaDgNhDVaDiMgCWbBCaCaCaCEnCeCbGkCbjKaDZdCfCbDbBAbFcRdOaDbHaQaBBCc",
    "BKLcBEbBFbBFbCNbCgJaDkKaBUcCaEObBJaEPcFbKaHcIMbDaCHaCgCaCaDhHjDaBXnCpBYdBXaCeCaGaBPiNbBHdDbCc",
    "CFaCbEaCcCHhDbFXcCmCgFaHaEbHRclBBTmFaElEODcFMaDTbfVJdEEbBSQFaFjBHbDDbKNaEaFaBAbGaFWbBBrOaBNh",
    "BAkBVcBXaDdDbBOaCQfDbDbNaJaBWaCAaCcDbGbCaBRbJaJFaDaFaBDZTaBCKpRpBLMaITaFUeCMHcCbGdBPcFaGKbWCd",
    "COeMGbDCdCTkBYdEUaCDoBQaDbLcBYdDbIaCKcBLeChCLaNbCBiLdDaDScDaCbHaDaGCaEhWbCGbEaBMgEeCTfOaCaCa",
    "PbDIhDcCaYaDHfCaFbCbJFdHbCbBCbDIhDaCbEDaCaDfCaDYaCaDdCeKAiCbJXbCaFaFPdDbFaBHjBPfDdJaKfDcBVmCb",
    "PRgCfCaDFvDgCbCbETfEaCbCgCaCVbEaCaNKbMbCBeGaCaYaHXUaHoQYZlEcDSBeCIgBOJaCMdDEaBDBLbGZAbtDwUZc",
    "ShDgBFdFTcCYEccFbxJaPaXeCoCAJgCqDgCbCeDXaGFgOMaCKdTPdJVbBCJgEGgBTCIWjf"]),
  (["mc", "spacingmark"], [
    "DKTaCEaDcJdCbBZbCHcHbDbLaBSaCHcCPaCHcJaCbCCbCHaCaHbDbLaDZbCbEcCcLaBQcCKdCKbCHaCeDbCbKbBDaPb",
    "CHcGcCcLaBRbCYcHhTbMTbCMaGQbFaHaDbBAbLcDgWbDfDaLcCLTaBFaFAaIhCbNJdDcFbCfIRbCHaCaKaCbJfFQaBXa",
    "GaCeCbCKaBFaFbDaCJaDcCaEbBXhJbGQaWaHHFbBTLCbDaDLbBZpFNbBWaBXbFbDcEHbDbZaBUaCaEGaDbGaJEbCbCbCa",
    "BLXKaCaEYaBUcFbEMaZbCIaBXcKbOaDQcEbCaGPcBGbCHbCdDbDcKaLbDHcIaDaCdCbCaDYcJbEaEDcHaCdDaJEcHdDa",
    "EKcJbCaEGaCbHaEAaCbFaKCcKaJOfCbFaDaCaFNcJdFaDHaBEbCLaPSaPaEDaIaDaIGeFbCaNNbNaBXbJbCaYYZcFJHcc",
    "EBbBKXObHf"]),
  (["me", "enclosingmark"], ["BSQbIKRaCIHdCcBYOYc"]),
  (["nd", "decimalnumber", "digit"], [
    "BWjCIPjFFjHRjPXjEPjEPjEPjEPjEPjEPjEPjEPjEPjDTjEPjCTjKTjCTjCTRjBNjLPjEZjGLjHjHBjDJjFFjHjCAEPj",
    "BADjBNjHRjXjDJjPRjBFMDjCCLjDFZjHjBERjEZjCJjFPjKTjNFjEPjOLjDZjHtCZjQHjDZjZNjDJjJNjCTjQHjYYHj",
    "DMDjDJjFFjUPjBKDZjECRbxDNDjQHjTJjJOjBGWjHBBj"]),
  (["nl", "letternumber"], ["IRUcDYUbiDdFMTaBAiPcBSYMjBIFHcaRTaJaFFeMETeg"]),
  (["pc", "connectorpunctuation"], ["DRaMBWbUaDGAPbZcJGa"]),
  (["pd", "dashpunctuation"], ["BTaCAVaCAaFKKaBNQaDBEfFHYaDaBGbFaBDaRFaUaEIaCZWBbBMaLaGOaFLPaMHa"]),
  (["ps", "openpunctuation"], [
    "BOaBZaBGaFPFaCaCUPaDPNaEaBNaCEaQaYLaCaBFaBPVaCaCaCaCaCaCaDDaBHaCaCaCaCaPPaCaCaCaCaCaCaCaCaCa",
    "CaCNaCaBIaBOWaCaCaCaBAaTaCaCaCaQNaCaCaCaCaEaCaCaCaDaCZRUaIIaBEaCaCaCaCaCaCaCaEaSaCaCaGPaBZa",
    "BGaEaDa"]),
  (["pe", "closepunctuation"], [
    "BPaCAaBGaFPEaCaCUPaDREaCEaQaYLaCaBFaBPVaCaCaCaCaCaCaDDaBHaCaCaCaCaPPaCaCaCaCaCaCaCaCaCaCaCNa",
    "CaBIaBOWaCaCaCaBTaCaCaCaQNaCaCaCaCaEaCaCaCaDbCZRRaIKaBEaCaCaCaCaCaCaCaEaSaCaCaGPaCAaBGaDaDa"]),
  (["pi", "initialpunctuation"], ["GPaLXLaDbDaBAaFFTaCaFaDaQaEa"]),
  (["pf", "finalpunctuation"], ["HFaLWWaEaBDaFFTaCaFaDaQaEa"]),
  (["po", "otherpunctuation"], [
    "BHcCcDaCaCbLbEbBCaCRaGaPbIaBBBaJaRZfBQaCDaDaDaBTbVbCbOaCcCXdDZaBSnJAcCDoBGaKCbLaFLaERaESaPBa",
    "NaOEaDNaLbGNoCaEJaCXeFbEIfGQaXPiBDUaEVcCUbGCcCcBMfCdMCbIJbEZgCfGFbLgBDcEVdCIeCLbCNhMaBGDbJhJi",
    "DdDcEkCaCjEUDdCbEJaFObFcDaDiCbCaDbLeCjDdCaCmDcQNcCGaHIaBRYHbKKcDWaLaEMfORdDJbBPcCaBYbBWaDUmRb",
    "EVdEXbRbJQaBFCVgDaXaVbDdEcCdIcHaCbFUcCcDaCaCbLbEbBCaBLaDbPVcZTaBXaPZaBCQaHSaBGaKNiBNaEJgCPg",
    "DMdBKReBTdHIgEGbCdEXdBXbDCdFaOaCcDLfEEaLNbCbELeLbCaEBaJRwECcBDmCZaFBcJTaKFcGAaDPhDGcCeDQjIIa",
    "DSeBRbYWbCXmGUaBRTeEJDbWDWbFEaCOeJaVHcLKdMQaBDBPaLIMeEIUaBHFb"]),
  (["sm", "mathsymbol"], [
    "BRaRcCKaCaBUaFaBMaBGaBDNaUIcJYIaOaBOcOcFKaBOeHaCReGbFaDaDaIaBGbDaCaBGkhBHbDNaBFyBPfSCaKaCDh",
    "EIaMZeDbeLpJXfaXckFbfDjxBXuDfDASRaBFTaCcGJaRcCKaCaFCaHdFEGbCYFAaBAaBGaBAaBGaBAaBGaBAaBGaBAa",
    "IUFb"]),
  (["sc", "currencysymbol"], [
    "BKaEWdBWKaEUaTFbTFbIaJMaKEaWKaDQQaDIJbgBZHWaBGMMaEFaFZaIMbEbMCTdCVXFaDRLa"]),
  (["sk", "modifiersymbol"], [
    "DQaCaCUaHaFaEaUCdNnGgCaCqEOaPbBXJaIUNaCcMcOcOcObGHPbBSVSwKbEAbBLPaPbBEKLqBIIaCaGHaDOLKe"]),
  (["so", "othersymbol"], [
    "GKaDaFaCaBLQaKHbEYbHZaLaUbJOaTWaOKaFBfCaFDaIAaBQaPCcQaCcDfVaCaCaFEhCfCbGdHQbBCZjBBWaBBVaGCbh",
    "NQjKiCCIbCdCbLaCbHfCaCaCaFaMbPaCbCaCHbKeDdCbCbCgCbeDbCaCbeKJhFtDgDdcCbdBAbnHctXkDEczXhaCiCcb",
    "JegCjnBTbrCNjvTTbvWbHbmDbfCeaIWfNUbBVzCdkNifBBpFaObNaWbHbMZbFjBHblKaRbeMbdJaQbfLbmQmhJTPcl",
    "BGUJccBHIdLbCaWCcBFJBpEYaBUcSRaEaFbObMCiCGqDcCmEaBWbsCLVbWUaESTaDGOhFqBCNJdGaBEUXaFVOjfRqt",
    "GBelCJjlLbmDchGcXbIbdFciWcnEaHFdiBTYtrCEdBZhCnCbCOVaEHXaFAaBBUbrFdvNoDoCoCbkYgeCFbcObrFiIbPf",
    "FZjqGbbzFqEmEeoFdqHlFaQlFcdJjHbnJbdDlFbCLnbNnDmEjGcdIoDkHiIfqCdn"]),
  (["zs", "spaceseparator"], ["BGaEYaIHKaDPOkBLaBWaFXXa"]),
  (["zl", "lineseparator"], ["MEQa"]),
  (["zp", "paragraphseparator"], ["MERa"]),
  (["cc", "control", "cntrl"], ["AbfDSbg"]),
  (["cf", "format"], [
    "GRaCALfXaHLaBYaOVbDDaFTKaDAReBBeBYeCjDGHKaJQcGJAaQaNKLpBZQVdHWYhBTKZNaBFdr"]),
  (["co", "privateuse"], ["DGVOjmdCAHXPdsynDdsyn"])]

end SqlScript.Regex
