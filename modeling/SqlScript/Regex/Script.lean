import SqlScript.Regex.NamedTable

/-!
# Scripts

The scripts of Unicode 16 by their names. What is used in many scripts is in none of them.
-/

namespace SqlScript.Regex

/-- The characters of each script. -/
def scriptTables : List NamedTable := [
  (["adlm", "adlam"], ["HDEUcxFjFb"]),
  (["aghb", "caucasianalbanian"], ["DUXSbzMa"]),
  (["ahom"], ["EBRCbaDoFw"]),
  (["arab", "arabic"], [
    "CHCeCfCnCcCbfCjMzCedCbhDDbvJHbeCbGcwCbcDNTXekRnyDdbDcbIaBHpEJeCfeFVObeCQcCEdDGLTdCbaCbCaDaCj",
    "CdCaCaHaFaCaCaCcCbCaDaCaCaCaCaCbCaDdCgCdCdCaCjCqGcCeCqCBb"]),
  (["armi", "imperialaramaic"], ["DWBWvCi"]),
  (["armn", "armenian"], ["BZDblDbxDcDOZKe"]),
  (["avst", "avestan"], ["DXCYcbEg"]),
  (["bali", "balinese"], ["KFWcyCbx"]),
  (["bamu", "bamum"], ["CLCQdjCVCRvw"]),
  (["bass", "bassavah"], ["FHKIbdDf"]),
  (["batk", "batak"], ["KNGbzJd"]),
  (["beng", "bengali"], ["DPOdChDbDvCgCaEdDiDbDdJaFbCeDy"]),
  (["bhks", "bhaiksuki"], ["EDOIiCbsCnLbc"]),
  (["bopo", "bopomofo"], ["BCSbRLYbqEJbf"]),
  (["brah", "brahmi"], ["DZAEczFbjKa"]),
  (["brai", "braille"], ["PDWjv"]),
  (["bugi", "buginese"], ["JWAbbDb"]),
  (["buhd", "buhid"], ["IUYt"]),
  (["cakm", "chakma"], ["DZKAcaCr"]),
  (["cans", "canadianaboriginal"], ["HOYypVPcrDTPRp"]),
  (["cari", "carian"], ["DTYMbw"]),
  (["cham"], ["CMJWccKnDjDd"]),
  (["cher", "cherokee"], ["HLGdhDfCFJFdb"]),
  (["chrs", "chorasmian"], ["DYXCbb"]),
  (["copt", "coptic", "qaac"], ["BMGnPJLelGg"]),
  (["cpmn", "cyprominoan"], ["EKYYdu"]),
  (["cprt", "cypriot"], ["DVZKfDaCbrCbEaDa"]),
  (["cyrl", "cyrillic"], ["BNKfcDgmIVPkGFaCZaGFObfBTOBdrBHEDbDHPHcjBIa"]),
  (["deva", "devanagari"], ["DKQdcFoDzCIJHbfBRENj"]),
  (["diak", "divesakuru"], ["ECKUgDaDhCbCbdCbDlKj"]),
  (["dogr", "dogra"], ["ECAYch"]),
  (["dsrt", "deseret"], ["DUMAdb"]),
  (["dupl", "duployan"], ["GMDSecGmEiIjDd"]),
  (["egyp", "egyptianhieroglyphs"], ["ELDGbqrLfxq"]),
  (["elba", "elbasan"], ["DUVWbn"]),
  (["elym", "elymaic"], ["DYYYw"]),
  (["ethi", "ethiopic"], [
    "GVGcuCdDgCaCdDboCdDbgCdDgCaCdDoCceCdDcoDbfEzJVBwKgCgCgCgCgCgCgCgBVKDfDfDfKgCgEPYGgCdCbCo"]),
  (["gara", "garay"], ["DXZCblEbcJb"]),
  (["geor", "georgian"], ["GHSblCaGaDbqCdEJXbqDcGEBblCaGa"]),
  (["glag", "glagolitic"], ["QRGdrGIZHgCqDgCbCe"]),
  (["gong", "gunjalagondi"], ["EEBWfCbCbkCbCfIj"]),
  (["gonm", "masaramgondi"], ["EDYEgCbCbrEaCbCiJj"]),
  (["goth", "gothic"], ["DUEAba"]),
  (["gran", "grantha"], ["EADSdChDbDvCgCbCeDiDbDcDaHaGgDgEe"]),
  (["grek", "greek"], [
    "BHWdCcDdCaFaCaCcCaCtCckPpJNReBZeFeDHaMJvDfDblDfDhCaCaCaCbeDcaCoCnDfCsDcCiLKaCAJFaBGNJdaSa",
    "DAXScr"]),
  (["gujr", "gujarati"], ["DZLcCiCcCvCgCbCeDjCcCcDaQdDlIg"]),
  (["gukh", "gurungkhema"], ["FDRScf"]),
  (["guru", "gurmukhi"], ["DUNcCfFbDvCgCbCbCbDaCeFbDcEaIdCaIq"]),
  (["hang", "hangul"], ["GLKjvLLFbJYdpEKbeCObeBTAObcYUqnrNwFbwPAJbeEfDfDfDc"]),
  (["hani", "han"], [
    "RPWzCdkNifBWaCaBAiPdBLDjtnCNbfbjBHSJobDebBSIJbNbCCOLclfbBHgdtHinDinpPlbkQxxDQXuvCFZhhyGgff"]),
  (["hano", "hanunoo"], ["ITSu"]),
  (["hatr", "hatran"], ["DWIAsCbGe"]),
  (["hebr", "hebrew"], ["CCVccJbaFfDOVXzCeCaCbCbCj"]),
  (["hira", "hiragana"], ["SHDdhHcFPEWlaTaBEcYMWa"]),
  (["hluw", "anatolianhieroglyphs"], ["ESSEwk"]),
  (["hmng", "pahawhhmong"], ["FHMEcrLjCgCuGs"]),
  (["hmnp", "nyiakengpuachuehmong"], ["HAEAbsEnDjFb"]),
  (["hung", "oldhungarian"], ["DXRSbyObyIf"]),
  (["ital", "olditalic"], ["DUCEbjKc"]),
  (["java", "javanese"], ["CMEYczDjFb"]),
  (["kali", "kayahli"], ["CMAAbtCa"]),
  (["kana", "katakana"], ["SKVdlDcJHpIBbuCdjCZHFjCbsCOUDdCgCbCaLCcBZaPd"]),
  (["kawi"], ["EERWqCboEbc"]),
  (["khar", "kharoshthi"], ["DWTCdCbGhCcCbcDcFjIi"]),
  (["khmr", "khmer"], ["IXKdpDjHjSTbf"]),
  (["khoj", "khojki"], ["DZTWrCbu"]),
  (["kits", "khitansmallscript"], ["FJIIaKGYsbBQa"]),
  (["knda", "kannada"], ["ETCmCcCwCjCeDiCcCdIbHbCdDjCc"]),
  (["krai", "kiratrai"], ["FIIIcf"]),
  (["kthi", "kaithi"], ["DZFCcoLa"]),
  (["lana", "taitham"], ["JXGckCbcDkHjHn"]),
  (["laoo", "lao"], ["FMVbCaCeCxCaCwDeCaCgCjDd"]),
  (["latn", "latin"], [
    "CNzHzBWaQaGwCbeCrgBOeJXCblHbwGdGmCcrCOjvOGaOaRmFMbHaBCaSboECUbfBULNdxEcoDbCaChWnBFLbqCiCd",
    "BEDRgBOLzHzDCGfCbpCiDDNQbeHf"]),
  (["lepc", "lepcha"], ["KPScdEoEc"]),
  (["limb", "limbu"], ["JMEbeClFlFaEl"]),
  (["lina", "lineara"], ["DVFSlyKvLh"]),
  (["linb", "linearb"], ["DSYQlCzCsCbCoDnBJes"]),
  (["lisu"], ["CKKUbvBUMBa"]),
  (["lyci", "lycian"], ["DTXGbc"]),
  (["lydi", "lydian"], ["DWKMzGa"]),
  (["mahj", "mahajani"], ["DZNCbm"]),
  (["maka", "makasar"], ["EEQQy"]),
  (["mand", "mandaic"], ["DDGbbDa"]),
  (["mani", "manichaean"], ["DXAMbmFl"]),
  (["marc", "marchen"], ["EDSQbfDvCn"]),
  (["medf", "medefaidrin"], ["FISEdm"]),
  (["mend", "mendekikakui"], ["HCUYhoDp"]),
  (["merc", "meroiticcursive"], ["DWPKxFtDbt"]),
  (["mero", "meroitichieroglyphs"], ["DWOEbf"]),
  (["mlym", "malayalam"], ["EYAmCcCbyCcCfFpDz"]),
  (["modi"], ["EBHGcqMj"]),
  (["mong", "mongolian"], ["JCIbDaCtHdkIbqDSCCm"]),
  (["mroo", "mro"], ["FHEUbeCjFb"]),
  (["mtei", "meeteimayek"], ["CMSMwHUbtDj"]),
  (["mult", "multani"], ["DZYUgCaCdCoCk"]),
  (["mymr", "myanmar"], ["GBOgdCGAZbeDUbfBPANt"]),
  (["nagm", "nagmundari"], ["HBPObp"]),
  (["nand", "nandinagari"], ["ECQYhDbtDk"]),
  (["narb", "oldnortharabian"], ["DWYAbf"]),
  (["nbat", "nabataean"], ["DWEIbeJi"]),
  (["newa"], ["EANOdnCe"]),
  (["nkoo", "nko"], ["CYIcgDc"]),
  (["nshu", "nushu"], ["FJIFaYVNpf"]),
  (["ogam", "ogham"], ["INObc"]),
  (["olck", "olchiki"], ["KSUbv"]),
  (["onao", "olonal"], ["HBZKbqFa"]),
  (["orkh", "oldturkic"], ["DXMUcu"]),
  (["orya", "oriya"], ["EEJcChDbDvCgCbCeDiDbDcIcFbCeDr"]),
  (["osge", "osage"], ["DUSUbjFbj"]),
  (["osma", "osmanya"], ["DUQYbdDj"]),
  (["ougr", "olduyghur"], ["DYUQz"]),
  (["palm", "palmyrene"], ["DWDCbf"]),
  (["pauc", "paucinhau"], ["EDCAce"]),
  (["perm", "oldpermic"], ["DUFGbq"]),
  (["phag", "phagspa"], ["CLSQcd"]),
  (["phli", "inscriptionalpahlavi"], ["DXGQsGh"]),
  (["phlp", "psalterpahlavi"], ["DXHWrIdNg"]),
  (["phnx", "phoenician"], ["DWJGbbEa"]),
  (["plrd", "miao"], ["FIZOcwFceIq"]),
  (["prti", "inscriptionalparthian"], ["DXFKvDh"]),
  (["rjng", "rejang"], ["CMBWbjMa"]),
  (["rohg", "hanifirohingya"], ["DXWQbnJj"]),
  (["runr", "runic"], ["IOUcwEk"]),
  (["samr", "samaritan"], ["DAUbtDo"]),
  (["sarb", "oldsoutharabian"], ["DWWUbf"]),
  (["saur", "saurashtra"], ["CLVCcrJl"]),
  (["sgnw", "signwriting"], ["GWTKzbQeCo"]),
  (["shaw", "shavian"], ["DUPCbv"]),
  (["shrd", "sharada"], ["DZOYdr"]),
  (["sidd", "siddham"], ["EBCIcbDbl"]),
  (["sind", "khudawadi"], ["EAAQcgGj"]),
  (["sinh", "sinhala"], ["FCZcCrExCiCaDgEaFfCaChHjDcDULHt"]),
  (["sogd", "sogdian"], ["DYSEbp"]),
  (["sogo", "oldsogdian"], ["DYQIbn"]),
  (["sora", "sorasompeng"], ["DZIEyIj"]),
  (["soyo", "soyombo"], ["ECXSde"]),
  (["sund", "sundanese"], ["KKUclJXh"]),
  (["sunu", "sunuwar"], ["EDLWbhPj"]),
  (["sylo", "sylotinagri"], ["CLQEbs"]),
  (["syrc", "syriac"], ["CQYnCchDcKNk"]),
  (["tagb", "tagbanwa"], ["IWEmCcCb"]),
  (["takr", "takri"], ["EBMEcfHj"]),
  (["tale", "taile"], ["JPGbdDe"]),
  (["talu", "newtailue"], ["JRCbrFzHkEb"]),
  (["taml", "tamil"], ["EJIbCfEcCdEbCaCbEbEcElFeEcCdDaHaPuEALIbxOa"]),
  (["tang", "tangut"], ["FJIEaBGjbzJbdnTTi"]),
  (["tavt", "taiviet"], ["CMOUcoZe"]),
  (["telu", "telugu"], ["EOEmCcCwCpDiCcCdIbCcDaDdDjIi"]),
  (["tfng", "tifinagh"], ["RCYcdIbPa"]),
  (["tglg", "tagalog"], ["ISMvKa"]),
  (["thaa", "thaana"], ["CVWbx"]),
  (["thai"], ["FHXcfGbb"]),
  (["tibt", "tibetan"], ["FRSctCbjFbmCbjCoCgFb"]),
  (["tirh", "tirhuta"], ["EASMctJj"]),
  (["tnsa", "tangsa"], ["FHGQdaCj"]),
  (["todr", "todhri"], ["DVDGbz"]),
  (["toto"], ["HATKbe"]),
  (["tutg", "tulutigalari"], ["EAIQjCaDaCblCjCaDaCdCjCbJb"]),
  (["ugar", "ugaritic"], ["DUHCbdCa"]),
  (["vaii", "vai"], ["CKMQln"]),
  (["vith", "vithkuqi"], ["DVAEkCoCgCbCkCoCgCb"]),
  (["wara", "warangciti"], ["ECHCdeNa"]),
  (["wcho", "wancho"], ["HAVGcfGa"]),
  (["xpeo", "oldpersian"], ["DUIIbjFn"]),
  (["xsux", "cuneiform"], ["EFBSbjlDZegCeMhn"]),
  (["yezi", "yezidi"], ["DYLKbpCcDb"]),
  (["yiii", "yi"], ["CIPKbsuEcc"]),
  (["zanb", "zanabazarsquare"], ["ECUQct"]),
  (["zinh", "inherited", "qaai"], [
    "BDOehKSbRLkBBaBCJdGOYbeTUcCmCgFaHaEbHRclUFbHNbgFTYdEEbCZUKpRnBLOaITaGFBaCTCVbtDwUZcShDgBFd",
    "BTLHJjf"])]

end SqlScript.Regex
