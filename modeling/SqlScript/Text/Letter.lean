import SqlScript.Text.Range

/-!
# Letters

A letter is a character with the property Alphabetic of Unicode 17: the letters of every script,
letter numbers, dependent vowel signs and combining letters, but no combining accent.
-/

namespace SqlScript

/-- The ranges of the property Alphabetic. -/
def letterRanges : RangeTable := RangeTable.behind 0 [
  (65, 90), (7, 32), (48, 48), (11, 11), (5, 5), (6, 28), (2, 32), (2, 459), (5, 16), (15, 19),
  (8, 8), (2, 2), (87, 87), (30, 47), (2, 3), (3, 6), (2, 2), (7, 7), (2, 4), (2, 2), (2, 21),
  (2, 84), (2, 140), (9, 174), (2, 39), (3, 3), (7, 47), (40, 53), (2, 2), (2, 3), (2, 3), (2, 2),
  (9, 35), (5, 8), (30, 40), (6, 61), (2, 8), (15, 116), (2, 9), (5, 12), (5, 7), (11, 13), (3, 3),
  (17, 64), (14, 114), (25, 57), (10, 11), (5, 5), (6, 29), (3, 21), (20, 44), (8, 18), (6, 29),
  (2, 8), (8, 8), (9, 50), (11, 22), (4, 10), (7, 82), (2, 17), (2, 4), (5, 19), (14, 32), (2, 9),
  (3, 4), (3, 24), (2, 8), (2, 2), (4, 7), (4, 11), (3, 4), (3, 4), (2, 2), (9, 9), (5, 6), (2, 6),
  (13, 14), (11, 11), (5, 7), (2, 7), (5, 6), (3, 24), (2, 8), (2, 3), (2, 3), (2, 3), (5, 9),
  (5, 6), (3, 4), (5, 5), (8, 11), (2, 2), (18, 23), (12, 14), (2, 10), (2, 4), (2, 23), (2, 8),
  (2, 3), (2, 6), (4, 12), (2, 4), (2, 3), (4, 4), (16, 19), (22, 25), (5, 7), (2, 9), (3, 4),
  (3, 24), (2, 8), (2, 3), (2, 6), (4, 11), (3, 4), (3, 4), (10, 11), (5, 6), (2, 6), (14, 14),
  (17, 18), (2, 7), (4, 6), (2, 5), (4, 5), (2, 2), (2, 3), (4, 5), (4, 6), (4, 15), (5, 9), (4, 6),
  (2, 4), (4, 4), (7, 7), (41, 53), (2, 4), (2, 24), (2, 17), (4, 11), (2, 4), (2, 4), (9, 10),
  (2, 4), (2, 3), (3, 6), (29, 32), (2, 9), (2, 4), (2, 24), (2, 11), (2, 6), (4, 11), (2, 4),
  (2, 4), (9, 10), (6, 8), (2, 5), (14, 16), (13, 25), (2, 4), (2, 42), (3, 10), (2, 4), (2, 4),
  (2, 2), (6, 9), (8, 12), (23, 28), (2, 4), (2, 19), (4, 27), (2, 10), (2, 2), (3, 9), (9, 14),
  (2, 2), (2, 9), (19, 20), (14, 71), (6, 12), (7, 7), (52, 53), (2, 2), (2, 6), (2, 25), (2, 2),
  (2, 20), (2, 4), (3, 7), (2, 2), (7, 7), (15, 18), (33, 33), (64, 71), (2, 37), (5, 23), (5, 20),
  (2, 37), (68, 122), (2, 2), (3, 7), (17, 80), (11, 14), (3, 40), (2, 2), (6, 6), (3, 45),
  (2, 334), (2, 5), (3, 9), (2, 2), (2, 5), (3, 43), (2, 5), (3, 35), (2, 5), (3, 9), (2, 2),
  (2, 5), (3, 17), (2, 58), (2, 5), (3, 69), (38, 53), (17, 102), (3, 8), (4, 623), (3, 19),
  (2, 27), (6, 80), (4, 14), (8, 27), (12, 32), (13, 32), (13, 25), (2, 4), (2, 3), (13, 64),
  (3, 21), (15, 15), (5, 5), (68, 156), (8, 50), (6, 75), (11, 41), (2, 13), (5, 13), (24, 53),
  (3, 7), (12, 55), (5, 30), (55, 82), (5, 67), (3, 22), (51, 51), (24, 25), (12, 14), (50, 101),
  (2, 16), (2, 9), (52, 93), (3, 6), (11, 54), (2, 12), (15, 69), (23, 25), (11, 46), (3, 13),
  (6, 48), (3, 5), (42, 45), (2, 7), (2, 3), (4, 4), (6, 197), (20, 53), (12, 289), (3, 8), (3, 40),
  (3, 8), (3, 10), (2, 2), (2, 2), (2, 2), (2, 32), (3, 55), (2, 8), (2, 2), (4, 6), (2, 8), (4, 7),
  (3, 8), (5, 17), (6, 8), (2, 8), (117, 117), (14, 14), (17, 29), (102, 102), (5, 5), (3, 12),
  (2, 2), (4, 8), (7, 7), (2, 2), (2, 2), (2, 5), (2, 12), (3, 6), (6, 10), (5, 5), (18, 58),
  (814, 865), (1815, 2043), (7, 10), (4, 5), (13, 50), (2, 2), (6, 6), (3, 58), (8, 8), (17, 39),
  (10, 16), (2, 8), (2, 8), (2, 8), (2, 8), (2, 8), (2, 8), (2, 8), (2, 33), (48, 48), (470, 472),
  (26, 34), (8, 12), (3, 7), (5, 90), (7, 9), (2, 91), (2, 5), (6, 48), (2, 95), (18, 49), (49, 64),
  (513, 7104), (65, 22221), (68, 113), (3, 271), (4, 19), (11, 12), (21, 67), (6, 13), (4, 116),
  (40, 48), (3, 105), (3, 84), (21, 41), (2, 34), (25, 76), (13, 80), (2, 2), (45, 50), (4, 4),
  (2, 4), (11, 43), (6, 40), (14, 42), (4, 54), (2, 13), (16, 16), (17, 32), (11, 15), (2, 56),
  (10, 23), (19, 41), (4, 72), (2, 2), (2, 2), (25, 27), (3, 18), (3, 6), (12, 17), (3, 8), (3, 8),
  (10, 16), (2, 8), (2, 44), (2, 15), (7, 129), (22, 11193), (13, 35), (5, 53), (8453, 8818),
  (3, 108), (39, 45), (13, 17), (6, 17), (2, 14), (2, 6), (2, 2), (2, 3), (2, 3), (2, 109),
  (34, 396), (19, 82), (3, 56), (41, 52), (117, 121), (2, 136), (37, 62), (7, 32), (12, 100),
  (4, 9), (3, 8), (3, 8), (3, 5), (36, 47), (2, 27), (2, 20), (2, 3), (2, 16), (3, 16), (35, 157),
  (70, 122), (268, 296), (4, 52), (48, 79), (14, 43), (6, 48), (6, 35), (3, 38), (5, 12), (2, 6),
  (43, 200), (19, 54), (5, 40), (5, 44), (9, 60), (13, 23), (2, 16), (2, 8), (2, 3), (2, 12),
  (2, 16), (2, 8), (2, 3), (4, 55), (13, 323), (10, 31), (11, 18), (25, 30), (2, 43), (2, 10),
  (70, 75), (3, 3), (2, 45), (2, 3), (4, 4), (3, 25), (11, 33), (10, 40), (66, 84), (2, 3),
  (11, 32), (11, 36), (7, 32), (39, 94), (7, 8), (65, 68), (2, 3), (6, 13), (2, 4), (2, 30),
  (43, 71), (4, 32), (36, 43), (2, 29), (28, 81), (11, 32), (11, 29), (14, 31), (111, 183),
  (56, 106), (14, 64), (14, 53), (35, 62), (4, 4), (6, 28), (251, 292), (2, 3), (4, 5), (17, 22),
  (51, 53), (4, 32), (11, 11), (9, 30), (43, 60), (47, 67), (28, 50), (10, 79), (44, 48), (11, 67),
  (10, 10), (14, 38), (24, 74), (18, 21), (9, 43), (4, 4), (10, 73), (2, 5), (10, 11), (11, 11),
  (2, 2), (36, 53), (2, 35), (3, 3), (7, 10), (63, 69), (2, 2), (2, 5), (2, 16), (2, 11), (8, 64),
  (24, 27), (2, 9), (3, 4), (3, 24), (2, 8), (2, 3), (2, 6), (4, 11), (3, 4), (3, 4), (4, 4),
  (7, 7), (6, 12), (29, 38), (2, 2), (3, 3), (2, 39), (2, 11), (2, 2), (3, 3), (2, 5), (2, 3),
  (4, 4), (2, 2), (45, 110), (2, 4), (2, 5), (21, 23), (31, 96), (3, 4), (2, 2), (185, 238), (3, 9),
  (26, 31), (35, 97), (2, 2), (4, 4), (60, 113), (3, 3), (72, 98), (3, 16), (22, 28), (186, 242),
  (104, 167), (32, 39), (3, 3), (3, 10), (2, 3), (2, 31), (2, 3), (3, 4), (3, 6), (94, 101),
  (3, 48), (3, 8), (2, 2), (2, 3), (28, 78), (3, 12), (18, 89), (6, 6), (19, 91), (104, 111),
  (89, 121), (32, 40), (2, 46), (2, 8), (2, 2), (50, 79), (3, 24), (2, 15), (74, 80), (2, 3),
  (2, 45), (4, 4), (2, 3), (2, 4), (2, 2), (3, 4), (25, 30), (2, 3), (2, 38), (2, 3), (2, 5),
  (2, 2), (24, 67), (261, 283), (10, 26), (2, 42), (4, 6), (112, 112), (80, 1001), (103, 213),
  (18, 213), (2637, 2733), (16, 1087), (18, 23), (26, 4020), (6, 588), (6842, 6888), (1746, 2314),
  (8, 38), (18, 96), (18, 47), (19, 66), (17, 20), (32, 52), (6, 24), (433, 477), (212, 275),
  (33, 57), (3, 27), (45, 119), (5, 61), (8, 24), (65, 66), (2, 2), (13, 19), (10, 7391), (42, 73),
  (98, 212), (8702, 8705), (2, 8), (2, 3), (2, 292), (16, 16), (30, 32), (3, 3), (15, 18), (9, 404),
  (2309, 2415), (6, 18), (4, 12), (8, 17), (5, 5), (5986, 6070), (2, 72), (2, 3), (3, 3), (3, 4),
  (3, 6), (2, 13), (2, 2), (2, 8), (2, 66), (2, 5), (3, 10), (2, 8), (2, 29), (2, 5), (2, 6),
  (2, 2), (4, 10), (2, 341), (3, 27), (2, 26), (2, 32), (2, 26), (2, 32), (2, 26), (2, 32), (2, 26),
  (2, 32), (2, 26), (2, 9), (1845, 1875), (7, 12), (214, 220), (2, 18), (3, 9), (2, 3), (2, 6),
  (6, 67), (34, 34), (113, 157), (11, 17), (17, 17), (322, 351), (19, 62), (485, 512), (229, 258),
  (3, 3), (208, 238), (2, 23), (9, 10), (225, 231), (2, 5), (2, 3), (2, 16), (2, 198), (60, 127),
  (4, 4), (4, 4), (1205, 1208), (2, 28), (2, 3), (2, 2), (3, 3), (2, 11), (2, 5), (2, 2), (2, 2),
  (7, 7), (5, 5), (2, 2), (2, 2), (2, 4), (2, 3), (2, 2), (3, 3), (2, 2), (2, 2), (2, 2), (2, 2),
  (2, 3), (2, 2), (3, 6), (2, 8), (2, 5), (2, 5), (2, 2), (2, 11), (2, 18), (6, 8), (2, 6), (2, 18),
  (629, 654), (7, 32), (7, 32), (3703, 46422), (33, 4414), (3, 5776), (3, 7475), (16, 637),
  (2467, 3008), (1507, 6445), (6, 8495)]

/-- Whether `c` has the property Alphabetic. -/
def isLetter (c : Char) : Bool :=
  letterRanges.contains c

end SqlScript
