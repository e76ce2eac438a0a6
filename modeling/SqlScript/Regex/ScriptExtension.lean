import SqlScript.Regex.NamedTable

/-!
# Script extensions

The scripts of Unicode 16 that share characters with others, each with the characters of others that
are used in it.
-/

namespace SqlScript.Regex

/-- The characters used in each script beside its own. -/
def scriptExtensionTables : List NamedTable := [
  (["adlm", "adlam"], ["CIHaBHaJWPaFHIa"]),
  (["aghb", "caucasianalbanian"], ["BDSaBTaBTa"]),
  (["arab", "arabic"], ["CHOaPaEaBHaLkBBaJUTaFHIaDAKBbCDLbb"]),
  (["armn", "armenian"], ["BDWa"]),
  (["avst", "avestan"], ["HBaRFTb"]),
  (["beng", "bengali"], ["BAYaCMVbSbHJFaCaDbCaJaJaDaFaDcCBAGa"]),
  (["bopo", "bopomofo"], ["BBJaCcOaRCQcFjCmLdDaHaHOaCZTIbKXe"]),
  (["bugi", "buginese"], ["CMHZa"]),
  (["buhd", "buhid"], ["IUNb"]),
  (["cakm", "chakma"], ["DTMjCKFj"]),
  (["cari", "carian"], ["HBaLZNaDaFGEa"]),
  (["cher", "cherokee"], ["BDOcCaHbXbMb"]),
  (["copt", "coptic", "qaac"], ["HBaWNaEbCaEFbQDUaDCPDbb"]),
  (["cpmn", "cyprominoan"], ["DTIMb"]),
  (["cprt", "cypriot"], ["DTIMcFbsEi"]),
  (["cyrl", "cyrillic"], ["BAYaCQcCaCaCaDaGaOIbJQOaGELa"]),
  (["deva", "devanagari"], ["BAYaCMVbSbHJFbmCbBNBaBZFSj"]),
  (["dogr", "dogra"], ["DOMlCIDDj"]),
  (["dupl", "duployan"], ["HBaWUbCaZbQIIaFUWQd"]),
  (["elba", "elbasan"], ["HBaWSa"]),
  (["ethi", "ethiopic"], ["BECa"]),
  (["gara", "garay"], ["CHOaPaEa"]),
  (["geor", "georgian"], ["HBaBVMaEISaFVJaFGHa"]),
  (["glag", "glagolitic"], ["HBaWQaCaOTaDaJYaEISaFVJaFGZaBTNGa"]),
  (["gong", "gunjalagondi"], ["HBaDHLb"]),
  (["gonm", "masaramgondi"], ["DOMb"]),
  (["goth", "gothic"], ["HBaWRbDaBPa"]),
  (["gran", "grantha"], ["DNTbSbYRnGKBaCbBFcEbBNBaDNTRaETXbCa"]),
  (["grek", "greek"], ["HBaWNbDaCaCaLaBVaDaBVaJYYbZSa"]),
  (["gujr", "gujarati"], ["DNTbSbCIDNj"]),
  (["gukh", "gurungkhema"], ["DONa"]),
  (["guru", "gurmukhi"], ["DNTbSbCIDNj"]),
  (["hang", "hangul"], ["SERcFjCmRaHaHOaCZTIbKXe"]),
  (["hani", "han"], [
    "HBaRWZpCcDaCjCmLdDaHaFdHGaFTpBHblKaBXbnCFbwQlCAaDLyLeDTbeBROKhBHBAbKXeDCHFrLRZb"]),
  (["hano", "hanunoo"], ["IUNb"]),
  (["hebr", "hebrew"], ["BDVb"]),
  (["hira", "hiragana"], ["SERcFjCmRfCaFbDOdEaDNbCZTHbKXeLaBUb"]),
  (["hung", "oldhungarian"], ["MGOaDaFGEaQa"]),
  (["java", "javanese"], ["CMHZa"]),
  (["kali", "kayahli"], ["CMBUa"]),
  (["kana", "katakana"], ["BDTaBEaQZUcFjCmRfCaFbDOdEaDNbCZTHbKXeLaBUb"]),
  (["khoj", "khojki"], ["EDIjCHOJj"]),
  (["knda", "kannada"], ["DNTbSbHJFaCbHaYaCaCASYf"]),
  (["kthi", "kaithi"], ["DOOjNXYaBUFFj"]),
  (["latn", "latin"], ["HBaTXaLaCcCaKaCaBNoCbCaNaDcIbCbBNaGaFmKSbBVFbCXLaEXXaVVaHLaEZNaBTUNhVFa"]),
  (["limb", "limbu"], ["DONa"]),
  (["lina", "lineara"], ["DTITbs"]),
  (["linb", "linearb"], ["DTIMcFbsEi"]),
  (["lisu"], ["BAYaRaRDLb"]),
  (["lyci", "lycian"], ["MGOa"]),
  (["lydi", "lydian"], ["HBaRFUa"]),
  (["mahj", "mahajani"], ["HBaDHLlCIDDj"]),
  (["mand", "mandaic"], ["CJOa"]),
  (["mani", "manichaean"], ["CJOa"]),
  (["mero", "meroitichieroglyphs"], ["MGRa"]),
  (["mlym", "malayalam"], ["DNTbSbHJPaYaCATAc"]),
  (["modi"], ["CLSAj"]),
  (["mong", "mongolian"], ["JCKbCaDCKaFZUbGd"]),
  (["mult", "multani"], ["DYKj"]),
  (["mymr", "myanmar"], ["CMBUa"]),
  (["nand", "nandinagari"], ["DNTaTbBINjGBIaJaIaCASSf"]),
  (["newa"], ["DNTbHKDaCbKaHaCaCa"]),
  (["nkoo", "nko"], ["CHOaPaEaDPPFb"]),
  (["onao", "olonal"], ["DOMb"]),
  (["orkh", "oldturkic"], ["MGOaFGGa"]),
  (["orya", "oriya"], ["DNTbSbHJPaYa"]),
  (["osge", "osage"], ["BDPaDaHaCZa"]),
  (["ougr", "olduyghur"], ["CJOaDUSWa"]),
  (["perm", "oldpermic"], ["HBaWNaGcLaOEa"]),
  (["phag", "phagspa"], ["JCKbCaDCKaFZVa"]),
  (["phlp", "psalterpahlavi"], ["CJOa"]),
  (["rohg", "hanifirohingya"], ["CHOaPaEaBHaFSa"]),
  (["runr", "runic"], ["IRRc"]),
  (["samr", "samaritan"], ["RMVa"]),
  (["shaw", "shavian"], ["HBa"]),
  (["shrd", "sharada"], ["DNTaHKGaCaDbDaKaDaCATFfDa"]),
  (["sind", "khudawadi"], ["DOMbCIDNj"]),
  (["sinh", "sinhala"], ["DOMbHKNa"]),
  (["sogd", "sogdian"], ["CJOa"]),
  (["sunu", "sunuwar"], ["BDObCaKaDaBDaEa"]),
  (["sylo", "sylotinagri"], ["DOMbEZj"]),
  (["syrc", "syriac"], ["BDRbDbCaWaDcIbCbBCDaPbDaBHaLkBBaIXSaCa"]),
  (["tagb", "tagbanwa"], ["IUNb"]),
  (["takr", "takri"], ["DOMbCIDNj"]),
  (["tale", "taile"], ["BDObGbEaFAAj"]),
  (["taml", "tamil"], ["DNTbSbHJPaCBBLaBOEGaCaCEb"]),
  (["tang", "tangut"], ["SEApTCa"]),
  (["telu", "telugu"], ["DNTbSbHJKbCaCaYa"]),
  (["tfng", "tifinagh"], ["BDQaCaCdBAa"]),
  (["tglg", "tagalog"], ["IUNb"]),
  (["thaa", "thaana"], ["CHOaPbDaCNjDPTHaLa"]),
  (["thai"], ["BAYaBBaBSaBUa"]),
  (["tibt", "tibetan"], ["SEYd"]),
  (["tirh", "tirhuta"], ["DNTbSbHJKaNaQaCATAj"]),
  (["todr", "todhri"], ["BDPaDaDaKaCaCXa"]),
  (["toto"], ["BAYa"]),
  (["tutg", "tulutigalari"], ["EXAjGBRaCaCASYfHGa"]),
  (["yezi", "yezidi"], ["CHOaPaEaCNj"]),
  (["yiii", "yi"], ["SERbGjDhIQaDAEGe"])]

end SqlScript.Regex
