import SqlScript.Text.Range

/-!
# Runs of case mappings

Case mappings between single characters come in runs: every character, or every second one, of a
range is moved by the same distance. `lowercaseRuns` are those of the lower case of Unicode 17.
-/

namespace SqlScript

/-- The characters `first`, `first + step`, … up to `last`, each moved by `shift`. -/
structure CaseRun where
  first : Nat
  last : Nat
  step : Nat
  shift : Int

/-- The runs of a list in which a step and a shift stand with the ranges they are for. The numbers
of the ranges count from the end of the range before. -/
def CaseRun.ofTable (table : List (Nat × Int × RangeTable)) : List CaseRun :=
  table.flatMap fun (step, shift, ranges) =>
    (ranges.behind 0).map fun (first, last) => ⟨first, last, step, shift⟩

/-- Whether the run maps the code point `n`. -/
def CaseRun.covers (run : CaseRun) (n : Nat) : Bool :=
  run.first ≤ n && n ≤ run.last && (n - run.first) % run.step == 0

/-- The image of the code point `n`, which the run is taken to cover. -/
def CaseRun.image (run : CaseRun) (n : Nat) : Nat :=
  ((n : Int) + run.shift).toNat

/-- The code points that the run maps. -/
def CaseRun.codes (run : CaseRun) : List Nat :=
  (List.range ((run.last - run.first) / run.step + 1)).map fun i => run.first + run.step * i

/-- The image of `n` under the first run that covers it, `n` itself where none does. -/
def CaseRun.mapCode : List CaseRun → Nat → Nat
  | [], n => n
  | run :: runs, n => if run.covers n then run.image n else mapCode runs n

/-- The code points that the runs send to `n`. -/
def CaseRun.sources (runs : List CaseRun) (n : Nat) : List Nat :=
  runs.filterMap fun run =>
    let source := ((n : Int) - run.shift).toNat
    if run.covers source && run.image source == n then some source else none

/-- The runs of capital letters with a lower-case letter of their own. -/
def lowercaseRuns : List CaseRun := CaseRun.ofTable [
  (1, 32, [(65, 90), (102, 124), (2, 8), (691, 707), (2, 10), (101, 132), (64242, 64267)]),
  (1, 32, [(68944, 68965), (2875, 2906), (21889, 21920)]),
  (2, 1, [(256, 302), (4, 8), (3, 17), (3, 47), (3, 7), (5, 7), (28, 32), (15, 17), (22, 38)]),
  (2, 1, [(478, 494), (4, 6), (4, 42), (4, 20), (20, 28), (290, 292), (102, 124), (114, 146)]),
  (2, 1, [(1162, 1214), (3, 15), (3, 97), (6354, 6502), (12, 106), (3433, 3437), (21, 119)]),
  (2, 1, [(11499, 11501), (31059, 31103), (20, 46), (136, 148), (4, 64), (11, 13), (3, 11)]),
  (2, 1, [(42896, 42898), (4, 22), (12, 26), (5, 7), (3, 17)]), (1, -121, [(376, 376)]),
  (1, 210, [(385, 385)]), (1, 206, [(390, 390)]),
  (1, 1, [(391, 391), (4, 4), (6, 6), (7, 7), (15, 15), (5, 5), (3, 3), (9, 9), (4, 4), (9, 9)]),
  (1, 1, [(456, 456), (115, 115), (6, 6), (309, 309), (129, 129), (3, 3), (6287, 6287)]),
  (1, 1, [(8579, 8579), (2781, 2781), (18, 18), (3, 3), (125, 125), (31385, 31385), (106, 106)]),
  (1, 205, [(393, 394), (9, 9)]), (1, 79, [(398, 398)]), (1, 202, [(399, 399)]),
  (1, 203, [(400, 400)]), (1, 207, [(404, 404)]), (1, 211, [(406, 406), (6, 6)]),
  (1, 209, [(407, 407)]), (1, 213, [(413, 413)]), (1, 214, [(415, 415)]),
  (1, 218, [(422, 422), (3, 3), (5, 5)]), (1, 217, [(433, 434)]), (1, 219, [(439, 439)]),
  (1, 2, [(452, 452), (3, 3), (3, 3), (39, 39)]), (1, -97, [(502, 502)]), (1, -56, [(503, 503)]),
  (1, -130, [(544, 544), (477, 479)]), (1, 10795, [(570, 570)]), (1, -163, [(573, 573)]),
  (1, 10792, [(574, 574)]), (1, -195, [(579, 579)]), (1, 69, [(580, 580)]), (1, 71, [(581, 581)]),
  (1, 116, [(895, 895)]), (1, 38, [(902, 902)]), (1, 37, [(904, 906)]),
  (1, 64, [(908, 908), (67828, 67878)]), (1, 63, [(910, 911)]), (1, 8, [(975, 975), (4129, 4134)]),
  (1, -60, [(1012, 1012)]), (1, -7, [(1017, 1017), (7155, 7155)]), (1, 80, [(1024, 1039)]),
  (1, 15, [(1216, 1216)]), (1, 48, [(1329, 1366), (9898, 9945)]),
  (1, 7264, [(4256, 4293), (2, 2), (6, 6)]), (1, 38864, [(5024, 5103)]),
  (1, -3008, [(7312, 7354), (3, 5)]), (1, -7615, [(7838, 7838)]),
  (1, -8, [(7944, 7951), (9, 14), (11, 18), (9, 16), (9, 14), (27, 34), (25, 32), (9, 16)]),
  (1, -8, [(8104, 8111), (9, 10), (31, 32), (15, 16)]), (2, -8, [(8025, 8031)]),
  (1, -74, [(8122, 8123)]), (1, -9, [(8124, 8124), (16, 16), (48, 48)]), (1, -86, [(8136, 8139)]),
  (1, -100, [(8154, 8155)]), (1, -112, [(8170, 8171)]), (1, -128, [(8184, 8185)]),
  (1, -126, [(8186, 8187)]), (1, -7517, [(8486, 8486)]), (1, -8383, [(8490, 8490)]),
  (1, -8262, [(8491, 8491)]), (1, 28, [(8498, 8498)]), (1, 16, [(8544, 8559)]),
  (1, 26, [(9398, 9423)]), (1, -10743, [(11362, 11362)]), (1, -3814, [(11363, 11363)]),
  (1, -10727, [(11364, 11364)]), (1, -10780, [(11373, 11373)]), (1, -10749, [(11374, 11374)]),
  (1, -10783, [(11375, 11375)]), (1, -10782, [(11376, 11376)]), (1, -10815, [(11390, 11391)]),
  (1, -35332, [(42877, 42877)]), (1, -42280, [(42893, 42893)]),
  (1, -42308, [(42922, 42922), (4, 4)]), (1, -42319, [(42923, 42923)]),
  (1, -42315, [(42924, 42924)]), (1, -42305, [(42925, 42925)]), (1, -42258, [(42928, 42928)]),
  (1, -42282, [(42929, 42929)]), (1, -42261, [(42930, 42930)]), (1, 928, [(42931, 42931)]),
  (1, -48, [(42948, 42948)]), (1, -42307, [(42949, 42949)]), (1, -35384, [(42950, 42950)]),
  (1, -42343, [(42955, 42955)]), (1, -42561, [(42972, 42972)]),
  (1, 40, [(66560, 66599), (137, 172)]), (1, 39, [(66928, 66938), (2, 16), (2, 8), (2, 3)]),
  (1, 27, [(93856, 93880)]), (1, 34, [(125184, 125217)])]

end SqlScript
