import SqlScript.Error

/-!
# Bracketed spans

A span is a stretch of text from an opening delimiter to the closing one that matches it.
`SpanSet.find` lists the spans of a text in the order in which they close, so a nested span comes
before the spans around it. `SpanSet.splice` replaces a stretch of the text by a part of itself and
moves the spans along, so that many replacements can be made without reading the text again.
-/

namespace SqlScript

/-- The bytes from `start` up to, and without, `stop`. -/
structure Extent where
  start : Nat
  stop : Nat
deriving DecidableEq, Repr

/-- Whether the offset lies in the extent. -/
def Extent.contains (extent : Extent) (offset : Nat) : Bool :=
  extent.start ≤ offset && offset < extent.stop

/-- The number of bytes of the extent. -/
def Extent.size (extent : Extent) : Nat :=
  extent.stop - extent.start

/-- A bracketed stretch of text, both delimiters included. -/
structure Span where
  start : Nat
  stop : Nat
  /-- Cleared once the opening delimiter is gone from the text. -/
  valid : Bool := true
deriving DecidableEq, Repr

/-- The spans of a text in the order in which they close. A span is named by its index. -/
abbrev SpanSet := List Span

namespace Span

/-- The bytes between the delimiters, each of which is one byte long. -/
def inner (span : Span) : Extent :=
  ⟨span.start + 1, span.stop - 1⟩

/-- The span moved by a distance, never past the start of the text. -/
def moveBy (span : Span) (distance : Int) : Span :=
  { span with
    start := ((span.start : Int) + distance).toNat
    stop := ((span.stop : Int) + distance).toNat }

/-- The span after `target` was replaced by the bytes of `source`. A span that starts in `source`
moves with it; one that starts past `target`, and the end of one around it, moves by the change in
length; any other span that starts in `target` is gone. -/
def afterSplice (target source : Extent) (span : Span) : Span :=
  let growth : Int := (source.size : Int) - target.size
  if !span.valid then span
  else if target.start ≤ span.start then
    if source.contains span.start then span.moveBy ((target.start : Int) - source.start)
    else if target.stop ≤ span.start then span.moveBy growth
    else { span with valid := false }
  else if target.stop < span.stop then
    { span with stop := ((span.stop : Int) + growth).toNat }
  else span

end Span

namespace SpanSet

/-- The spans of a text that stands at the offset, where `opened` holds the places of the opening
delimiters met so far, the last one first. -/
def findFrom (opening closing : Char) : Nat → List Nat → Text → SpanSet
  | _, _, [] => []
  | offset, opened, c :: t =>
    let stop := offset + c.utf8Size
    if c == opening then findFrom opening closing stop (offset :: opened) t
    else if c == closing then
      match opened with
      | start :: outer => ⟨start, stop, true⟩ :: findFrom opening closing stop outer t
      | [] => findFrom opening closing stop [] t
    else findFrom opening closing stop opened t

/-- The spans of a text. A delimiter without a partner belongs to no span. -/
def find (opening closing : Char) (t : Text) : SpanSet :=
  findFrom opening closing 0 [] t

/-- The span with the given index. -/
def get (spans : SpanSet) (index : Nat) : Except Error Span :=
  match spans[index]? with
  | some span => .ok span
  | none => .error (.noSpan index)

/-- The text with `target` replaced by the bytes of `source`, and the spans moved along. -/
def splice (spans : SpanSet) (t : Text) (target source : Extent) :
    Except Error (Text × SpanSet) := do
  let part ← t.slice source.start source.stop
  let before ← t.sliceTo target.start
  let after ← t.sliceFrom target.stop
  return (before ++ part ++ after, spans.map (Span.afterSplice target source))

end SpanSet

end SqlScript
