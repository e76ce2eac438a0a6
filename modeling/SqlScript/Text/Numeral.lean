import SqlScript.Text.Range

/-!
# Numerals

A numeral is a character of one of the categories Nd, Nl and No of Unicode 17: decimal digits of
every script, letter numbers such as the Roman ones, and superscripts, fractions and circled
numbers.
-/

namespace SqlScript

/-- The ranges of the categories Nd, Nl and No. -/
def numeralRanges : RangeTable := RangeTable.behind 0 [
  (48, 57), (121, 122), (6, 6), (3, 5), (1442, 1451), (135, 144), (199, 208), (413, 422),
  (119, 128), (5, 10), (109, 118), (119, 128), (119, 128), (3, 8), (111, 123), (116, 125), (9, 15),
  (104, 113), (105, 111), (8, 26), (110, 119), (97, 106), (119, 128), (71, 90), (269, 278),
  (71, 80), (720, 739), (882, 884), (240, 249), (7, 16), (23, 32), (301, 310), (129, 139),
  (166, 175), (7, 16), (183, 192), (87, 96), (135, 144), (7, 16), (1047, 1047), (4, 9), (7, 16),
  (199, 249), (3, 7), (727, 786), (79, 100), (631, 660), (1386, 1386), (778, 778), (26, 34),
  (15, 17), (344, 347), (139, 148), (31, 38), (2, 16), (33, 42), (40, 54), (29537, 29546),
  (189, 198), (321, 326), (155, 164), (39, 48), (199, 208), (23, 32), (87, 96), (407, 416),
  (21271, 21280), (494, 538), (13, 69), (18, 19), (342, 368), (37, 40), (30, 30), (9, 9),
  (135, 139), (203, 212), (943, 950), (26, 32), (40, 48), (76, 80), (23, 28), (161, 162), (3, 18),
  (3, 48), (65, 73), (53, 54), (31, 33), (76, 80), (105, 112), (25, 32), (42, 48), (331, 336),
  (49, 58), (7, 16), (279, 309), (159, 168), (43, 46), (113, 119), (135, 164), (129, 138), (61, 70),
  (145, 154), (8, 27), (252, 261), (343, 352), (119, 128), (375, 384), (103, 112), (7, 26),
  (77, 88), (421, 439), (94, 103), (663, 672), (87, 115), (228, 237), (71, 80), (55, 64),
  (359, 368), (103, 123), (1068, 1178), (15554, 15563), (2343, 2352), (87, 96), (135, 144), (2, 8),
  (527, 536), (263, 285), (350, 352), (23802, 23811), (1479, 1498), (13, 32), (109, 133),
  (1110, 1159), (2369, 2378), (423, 432), (503, 512), (248, 257), (717, 725), (129, 138),
  (792, 850), (2, 4), (2, 5), (77, 121), (2, 16), (963, 975), (2788, 2797)]

/-- Whether `c` is a number of any kind. -/
def isNumeral (c : Char) : Bool :=
  numeralRanges.contains c

end SqlScript
