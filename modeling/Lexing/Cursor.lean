import Lexing.Span

namespace Lexing

def breakEnds (offset : Nat) : List Char → List Nat
  | [] => []
  | c :: rest =>
    if c = '\n' then (offset + 1) :: breakEnds (offset + 1) rest else breakEnds (offset + 1) rest

def lineStarts (text : List Char) : List Nat := 0 :: breakEnds 0 text

structure Cursor where
  source : Array Char
  starts : List Nat
  offset : Nat
  starts_eq : starts = lineStarts source.toList
  offset_le : offset ≤ source.size

structure Mark where
  offset : Nat
  deriving DecidableEq, Repr

namespace Cursor

def ofList (text : List Char) : Cursor where
  source := text.toArray
  starts := lineStarts text
  offset := 0
  starts_eq := by simp
  offset_le := Nat.zero_le _

def ofString (text : String) : Cursor := ofList text.toList

@[ext] theorem ext {c d : Cursor} (hs : c.source = d.source) (ho : c.offset = d.offset) : c = d := by
  obtain ⟨cs, cst, co, hcs, hco⟩ := c
  obtain ⟨ds, dst, dn, hds, hdn⟩ := d
  cases hs
  cases ho
  cases hcs
  cases hds
  rfl

def size (c : Cursor) : Nat := c.source.size

def isEmpty (c : Cursor) : Bool := c.source.isEmpty

def hasNext (c : Cursor) : Bool := c.offset < c.source.size

def remaining (c : Cursor) : Nat := c.source.size - c.offset

def read? (c : Cursor) : Option (Char × Cursor) :=
  if h : c.offset < c.source.size then
    some (c.source[c.offset], { c with offset := c.offset + 1, offset_le := h })
  else none

def peekNth (c : Cursor) (n : Nat) : Option Char := c.source[c.offset + n]?

def peek (c : Cursor) : Option Char := c.peekNth 0

def unread (c : Cursor) (n : Nat) : Cursor :=
  { c with offset := c.offset - n, offset_le := Nat.le_trans (Nat.sub_le _ _) c.offset_le }

def skip (c : Cursor) (n : Nat) : Cursor :=
  { c with offset := min (c.offset + n) c.source.size, offset_le := Nat.min_le_right _ _ }

def mark (c : Cursor) : Mark := ⟨c.offset⟩

def restore (c : Cursor) (m : Mark) : Cursor :=
  { c with offset := min m.offset c.source.size, offset_le := Nat.min_le_right _ _ }

def current (c : Cursor) : Option Char := if c.offset = 0 then none else c.source[c.offset - 1]?

def previous (c : Cursor) : Option Char := if c.offset < 2 then none else c.source[c.offset - 2]?

def hasPrevious (c : Cursor) : Bool := 2 ≤ c.offset

/-- The place of any offset, also past the end of the text: its line is the last one that begins
at or before it. -/
def positionAt (c : Cursor) (offset : Nat) : Position :=
  let before := c.starts.takeWhile (· ≤ offset)
  ⟨offset, before.length, offset - before.getLastD 0 + 1⟩

def position (c : Cursor) : Position :=
  if c.offset = 0 then .origin else c.positionAt (c.offset - 1)

def describePosition (c : Cursor) : String :=
  let p := c.position
  s!"line {p.line}, column {p.column}, offset {p.offset}"

def slice (c : Cursor) (start stop : Nat) : List Char := (c.source.toList.take stop).drop start

@[simp] theorem restore_mark (c : Cursor) : c.restore c.mark = c :=
  ext rfl (Nat.min_eq_left c.offset_le)

theorem restore_mark_of_read? {c d : Cursor} {ch : Char} (h : c.read? = some (ch, d)) :
    d.restore c.mark = c := by
  rw [read?] at h
  split at h
  · simp only [Option.some.injEq, Prod.mk.injEq] at h
    obtain ⟨-, rfl⟩ := h
    exact ext rfl (Nat.min_eq_left c.offset_le)
  · simp at h

end Cursor

end Lexing
