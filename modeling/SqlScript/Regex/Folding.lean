import SqlScript.Text.CaseRun

/-!
# Simple case folding

Two characters are the same up to case when they have the same simple folding, that of Unicode 16.
The characters that fold alike form small orbits: `k`, `K` and the Kelvin sign, or the three forms
of sigma.
-/

namespace SqlScript.Regex

/-- The runs of the simple case folding. It is lower case, but that Cherokee letters fold to
capitals and that variants of small letters fold too. Some runs of lower case are longer or new
since. -/
def foldingRuns : List CaseRun :=
  (lowercaseRuns.filter fun run => [0x13A0, 0x13F0, 0xA7CC, 0x16EA0].all (· != run.first)) ++
    CaseRun.ofTable [
      (1, 775, [(181, 181)]), (1, -268, [(383, 383)]), (1, 116, [(837, 837)]),
      (1, 1, [(962, 962), (41994, 41994), (4, 4), (21301, 21301)]), (1, -30, [(976, 976)]),
      (1, -25, [(977, 977)]), (1, -15, [(981, 981)]), (1, -22, [(982, 982)]),
      (1, -54, [(1008, 1008)]), (1, -48, [(1009, 1009)]), (1, -64, [(1013, 1013)]),
      (1, -8, [(5112, 5117)]), (1, -6222, [(7296, 7296)]), (1, -6221, [(7297, 7297)]),
      (1, -6212, [(7298, 7298)]), (1, -6210, [(7299, 7300)]), (1, -6211, [(7301, 7301)]),
      (1, -6204, [(7302, 7302)]), (1, -6180, [(7303, 7303)]), (1, 35267, [(7304, 7304)]),
      (1, -58, [(7835, 7835)]), (1, -7173, [(8126, 8126)]), (1, -7235, [(8147, 8147)]),
      (1, -7219, [(8163, 8163)]), (2, 1, [(42966, 42970)]), (1, -38864, [(43888, 43967)])]

/-- The simple case folding of a code point. -/
def foldCode (n : Nat) : Nat :=
  CaseRun.mapCode foldingRuns n

/-- The code points that are equal to `n` up to case, `n` among them. -/
def foldOrbit (n : Nat) : List Nat :=
  let base := foldCode n
  base :: CaseRun.sources foldingRuns base

/-- The ranges with all that equals one of their members up to case. -/
def foldRanges (ranges : RangeTable) : RangeTable :=
  let reached := foldingRuns.flatMap fun run => run.codes.flatMap fun n =>
    if ranges.containsCode n then foldOrbit n
    else if ranges.containsCode (run.image n) then [n]
    else []
  ranges.union (.ofCodes reached)

end SqlScript.Regex
