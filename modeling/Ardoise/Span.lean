/-!
# Spans

A span is a stretch of source text: the byte offsets of its first byte and of
the byte after its last, with the line of its first character.  Lines count
from one.  A `Place` is the point a reader of the text has reached, and moves
over one character at a time.
-/

namespace Ardoise

structure Span where
  start : Nat
  stop : Nat
  line : Nat
  deriving DecidableEq, Inhabited

namespace Span

def nowhere : Span := ⟨0, 0, 0⟩

/-- From the start of `first` to the end of `last`; never ends before it starts. -/
def upTo (first last : Span) : Span :=
  ⟨first.start, max last.stop first.start, first.line⟩

def text (span : Span) : String :=
  toString span.start ++ ".." ++ toString span.stop ++ "@" ++ toString span.line

@[simp] theorem upTo_start (first last : Span) : (first.upTo last).start = first.start := rfl

@[simp] theorem upTo_line (first last : Span) : (first.upTo last).line = first.line := rfl

theorem upTo_stop {first last : Span} (ordered : first.start ≤ last.stop) :
    (first.upTo last).stop = last.stop :=
  Nat.max_eq_left ordered

end Span

structure Located (ε : Type) where
  span : Span
  fault : ε
  deriving DecidableEq

structure Place where
  offset : Nat
  line : Nat
  deriving DecidableEq

namespace Place

def origin : Place := ⟨0, 1⟩

def next (place : Place) (c : Char) : Place :=
  ⟨place.offset + c.utf8Size, if c = '\n' then place.line + 1 else place.line⟩

def after (place : Place) (cs : List Char) : Place :=
  cs.foldl next place

def spanTo (first last : Place) : Span :=
  ⟨first.offset, last.offset, first.line⟩

@[simp] theorem after_nil (place : Place) : place.after [] = place := rfl

@[simp] theorem after_cons (place : Place) (c : Char) (cs : List Char) :
    place.after (c :: cs) = (place.next c).after cs := rfl

theorem after_append (place : Place) (cs ds : List Char) :
    place.after (cs ++ ds) = (place.after cs).after ds :=
  List.foldl_append

end Place

end Ardoise
