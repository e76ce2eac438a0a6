import SqlScript.Regex.NamedTable

/-!
# Ages

The versions of Unicode up to 16, each with the characters it brought. The first one brought those
that no later one did.
-/

namespace SqlScript.Regex

/-- The characters that came with each version after the first. -/
def ageTables : List NamedTable := [
  (["1.1", "v11"], []),
  (["2.0", "v20"], [
    "CCVqCmVaDMYctCbgIbaFfCaCuEgCaFQOaUIaCATXqnrEIFZbDSYPbDSYPbDSYPbDSYPbDSYPbDSYPbDSYPbDSYPbDSYPb",
    "DSYPbDSYPbDSYPbDSYPhlxh"]),
  (["2.1", "v21"], ["MJSaDGOUa"]),
  (["3.0", "v30"], [
    "TIdBFhDrEOeBYaLeDKiUaENaEaCaCaCaBFaNaCPaNaBRbDdDPbGBaHTcDVbGaQaBReCnCbdEbaCCbwCFIbCrExCiCaDg",
    "EaFfCaChTcOKaBSaYcIaCcCoDaBXbhCeCbCgEdHzQHgCckCaCdDgCaCdDbmCaCdDbeCaCdDgCaCdDgCgCwCbeCaCdDg",
    "CbmCsHbbBKdgNyfKbcEdcFOdoEjXoCjHdjJbpCWCaZfDScBZbDIbCVaEAiKKaESaCbdFJbRQhBIaDJbPJjvCCFzCdkNif",
    "BBlCJcEaNQxWNjtdBFEHbsuErDpClCcCaBGSDaBVWc"]),
  (["3.1", "v31"], [
    "BMYbDQQDbfBXXbeCdNbaHAblDblCZDRjlLbmEgxVBdgCcsCbDaDbDdClCaCdCbCcmCdDhCgCbbCdCeCaEgCmzFldFbx",
    "PDXclesBETEuvBPCQUaBFdr"]),
  (["3.2", "v32"], [
    "UYaLRaUmEBbBDaFSbCGbDbDbBYpNNbMKaDNIbCHKmCgMwKtNmCcCbDIYaHeFaIeOaCLbBZgDFoGNlJJnEVaBFbzKZtFWj",
    "DLhXbDNlDjIPnDNbbFpJXtrBZOcDKbJbDRaJHpDEoDEoBRDJbRaNaEaBGJBcgBJEaEpCCbBTaJCb"]),
  (["4.0", "v40"], [
    "UZaTcEQbCMqDDhGcFWeTXdKiCNcFUbQaBUcBEcQVaHDaCQaCaFHaDHcOaCQaCIaFAhHMbEFOaTjKDbcElFlFaEbpDe",
    "EEbfBDPedBCQbIXaZKbLRaKRbENhPbBRBnCRObBYaBSbDBdGMdDWbBGaJTPclCOQWaCWbQYlCzCsCbCoDnBJesGcFbsEi",
    "WFbdCaFFbBNdbDjBGXfDaCbrCbEaDaCYUJdiNZaBTKDBjf"]),
  (["4.1", "v41"], [
    "VVkKTeGEdJNbGPaBJcCQaTaCHfJIbdUIaDDaSUaBWaBMObLKbCaKHaCMaCMaBOaBGaBGaBGaQaBOaYbBGzCGDbpHzHjFb",
    "BHbbDbBGNdjZIbCgBYeBEdCCaDDaQaYVkWBaDYbTkGpKLgBGIfJDbuCbuBIecPbsLcbKaRwKgCgCgCgCgCgCgCgBIxFb",
    "BJVpGTaBPIUvCTPwJAbrBFEBebBFRjBFBcwUObjFnCITdCbGhCcCbaFcFiJiCXPWcrBRBb"]),
  (["5.0", "v50"], [
    "WGnLOcNAaBRfRdGLaTYcgOVbCbBHJbObFIKcxFbsWMgCAbBCVdDQbCCaXClBBNaKRdBGKgGdMFmIdBULKdGbLBcdBKONz",
    "GaIRHbhuFQduOdCOGJrBQVb"]),
  (["5.1", "v51"], [
    "BHWdDbDKaHCaFLpITeMeBHeLRrTEbIPaBKaHZaBEbEFaEFaBBbJbVhHIaHaBEbNfEgSYbDUaEcDAaGaDaIcFfBBclFb",
    "DBFaBBYbqElCTcdEoEbyMUbbHAdDNfNTaFKaDRaCCdBYBaWjEdKFaBGdBFGeFboEeKVcCcFfNRbfZdDsBDLaGHtBPPPh",
    "BZPlnVbfDrJbbFCeDecEHeEZcqKlBNdfMaGFccKnDjDdBFSVcBHQlCBbtFBbcEbwCKEzGaCXSKaLRRbrFdv"]),
  (["5.2", "v52"], [
    "BYQbBCDbtDoHMaDAaHaBKbEZaCFQdHMdHHeCReDFfTTaYHiVPcrGZbBVaCSckCbcDkHjHnVBbiKHaBAVcFWcCDaXJa",
    "BASbBEcFjCsCaFxDKaBNIeKTaObEEgMIaBODlBPLThBXLbvQBdjMBjGLbbDXbcEczCkFbEZbbFcoZeIRbtDjQOLwFbw",
    "NBCcFGDvCiHFbMNbfEZcbEbcDbaGhEZcuUQbeTUcnLVRbpeCTNEkGbeDaMaCaDaEaEeJaIaBAaCbDaLdDaEIaQbhPi",
    "CQLKgdo"]),
  (["6.0", "v60"], [
    "BYSbJPaCLaSNbbDaIMbUaHbBCeTNfQSaRaUaWCdCWbBIPbDEObzJdTPaZPhBDaBFKkBCDaUaCdBEaFbBDaBKaCaFcKb",
    "CBcZaPaPbCDLaPaBPPcBSEObLObCbPjDDaBDVfDfDfKgCgBEMUpHRJczFbdBHEFvwBALCbYMHoDnDoCoDDaCkCaCbCcCc",
    "GhCgCjHiCaDbCjFbCjCYzCbBWiWbGTbgQfCcrEtNbkCeWqQckCaCgzCdEcjTxFSeCpCcCaCaCaCcCfDdCaDdClFkBXcr",
    "CHelCUQNin"]),
  (["6.1", "v61"], [
    "CCTaENaZSaCkCEbaTEaBMSbSUaGaBWcEBCcNfJXhBSdECRaCaBYRbCAaGaCFbHVjBRAFaCNOhBKaJJbXaDAbBCPwBEAAb",
    "FUVcdHbCRPyIjHcaCnCJcuIjBTVcdJjBHKPcqMbuRqBVWJdCbaCbCaDaCjCdCaCaHaFaCaCaCcCbCaDaCaCaCaCaCbCa",
    "DdCgCdCdCaCjCqGcCeCqCBbYJbBLTdHHaRaEaCaCaCaEaHbFaCbFa"]),
  (["6.2", "v62"], ["MKGa"]),
  (["6.3", "v63"], ["CIEaJYWd"]),
  (["7.0", "v70"], [
    "BILaQJhDQbEPaZSaMfCZaERaIaYQaCAaCZaEYaIVjDKShVDbPMoVYbJEoBBIcBFRgBDUaBQJcLzDbfDbhElChXVgBTOWf",
    "JNlMcDbCSaSVbeEWdGVbvFbBFIWgBHEbUaMIbbBKaBXbqPAbnJbzMaFPlyKvLhJPckJiRXbfBHbmFlFIrIdNgBVKaIBbm",
    "DJaNaHtMrCbqELcgGjIcChDbDvCgCbCeDiDbDcKaGgDgEeKIctJjGLcbDrCDcqMjWLdeNaRHceDFJbpHVlGaBALGbeCj",
    "FbDTbdDfLcrLjCgCuGsBEMBecGmEiIjDhQKZhoDpCZXaBHvWbUNlKaCTaXlBMaGdGlSgCUaCaHBaFbCMbFgBErCboCdh",
    "CTbObvCTjRmEdFLdgBSlFcdJjHbnJbd"]),
  (["8.0", "v80"], [
    "DHRbBVaUOaNPaKBaCMWaDfEVPaHWbDYFdBRWWiCOVaJHaBJfMNbXNdNdbBFFRbEBHsCbGeHHbDpDbtYRbyObyIfBVEdPe",
    "GFgCaCdCoCkDJaDCaYKtLFzEoFpERQaIXhnLQRwkCAWMkCIAzbQeCoJHEcDBbDCeBLhJWaCYeJKbFKaWEiEAeCIa",
    "CUCMinp"]),
  (["9.0", "v90"], [
    "DHUhXoBJQaHZaFcCgYcFSAiOHaCHCdDXDbBTZMaKTaBHQEbBEWbjFbjFAPaRIdlCaCaTVmCCYiCbsCnLbcEbfDvCn",
    "BFMWaBGjboUbdaBGFMgCqDgCbCeDJAcwGjFbDDCrFNaBFZaBQaLPbBIcVBfChJaDlClFoBNm"]),
  (["10.0", "v100"], [
    "DEMkPMbJTfTTaCHbFYXaJVdBBIaBGAaCZBaYDeBCNaBPXOuBLPJcIQRctJbzDwCeXIgCbCbrEaCbCiJjBFGQaYHLky",
    "DEpfYAFfBRQbBJbUAlUaJhCbBAaTmBNfCFwDCPElbk"]),
  (["11.0", "v110"], [
    "CAYaBOaDZaUGcIEaLNaEQaPIaEYaENSaBOIbqDcFRNcXyFoWQeBCJaBPYIeCYIaJbMNbBKVDbTaBAUbnJjRNbnJbpOIa",
    "EPcTHaLFaBAYaIWchXMaBBFfCbCbkCbCfIjLZyBEAQdmJPJeBCJVtEXgJLXcpBSDaCFAaIMdOJcBDeDdEaCdZkOjIbBLy",
    "DTn"]),
  (["12.0", "v120"], [
    "ESTaUHaDaDaCfFaIaIbDaOaFKIaFPVaCCaWUaBTZNfDeBJSbBMBHwBRLaXDaBCQhDbtDkGEbBZNbxOaHQViWJLfFaBWi",
    "DNbJCXfPRDcSdSARbsEnDjFbOFcfGaCKAaBKOciBPFaCBHaBLaIWlLEcBWaBYaKaBQfEbLfEhDcBXdfBDdFcGcOf"]),
  (["12.1", "v121"], ["TIDa"]),
  (["13.0", "v130"], [
    "DICjZEaQPaEVaFAKbGJVaBAVcBHPeKPJjBFDHmCYTdBRbCCaBFWdBGQRaEWYbpCcDbJVbbOQaFFbZBaGbBTNgDaDhCb",
    "CbdCbDlKjCKLaBEJSaMbKFYsoBRiBLWVcDQcCKaBYVbBKbQUbDNaDYaFbBRbHcBEaGNaPdQsIgKcOgBQfqCccBMjCMSKg",
    "BHTRhhy"]),
  (["14.0", "v140"], [
    "CIFaWXbeCbHhWaTkBHQaBHaEYaDWIaIaKaJGaBAOnEWaBXbYMaBBIaEIPaBWaTGkBRAUcCYJbPbCaCeZcBFTEaOSpEYa",
    "BVbCVHkCoCgCbCkCoCgCbRKfCbpCiCXYzIXfCZaCGTaFFgBHQpHWZduWDYdaCjBAEXdCgCbLDdLICbtDwKelVEbEYWbe",
    "BHYbeBZEgCdCbCoFQLcKNaPDaDFaGTbBTdLdJcScHhJgCNCQbGEWd"]),
  (["15.0", "v150"], [
    "EXNaSHaDTALcBGAcDIDjBNBqCboEbbHXEaKbcBVHLaBJaMRBtERIfKCcjBIaBPXbpGUDaFWcFeDMaZScQbBLcMcCaPbLb",
    "NaPbCTHPaBIWTgff"]),
  (["15.1", "v151"], ["SEMdTCaKEIRxx"]),
  (["16.0", "v160"], [
    "DGPaHCHbBWaKGbCWZcFFFbBSQWcNcBJOMbzCTXblEbcJbLVcCEaBSMjCaDaCblCjCaDaCdCjCbJbBCWtBVXbhPjBHHa",
    "HZAfxqKZUcfEOLcfLYKaXWJjpHqtITPbqFaHCDjFbROaGaBVaIaWaDaKaISbk"])]

end SqlScript.Regex
