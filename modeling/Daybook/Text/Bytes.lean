/-! Text as bytes in UTF-8, and the lines of a byte sequence. -/
namespace Daybook

abbrev Bytes := List UInt8

namespace Bytes

def ofString (s : String) : Bytes :=
  s.toList.flatMap String.utf8EncodeChar

def toString? (b : Bytes) : Option String :=
  b.toByteArray.utf8Decode?.map fun cs => String.ofList cs.toList

@[simp] theorem ofString_append (s t : String) : ofString (s ++ t) = ofString s ++ ofString t := by
  simp [ofString]

@[simp] theorem toString?_ofString (s : String) : toString? (ofString s) = some s := by
  have h := List.utf8Decode?_utf8Encode (l := s.toList)
  simp only [List.utf8Encode] at h
  simp [toString?, ofString, h]

def lineFeed : UInt8 := 0x0A
def carriageReturn : UInt8 := 0x0D

structure RawLine where
  content : Bytes
  ended : Bool
  deriving DecidableEq, Repr

def rawLines : Bytes → List RawLine
  | [] => []
  | b :: bs =>
    if b = lineFeed then ⟨[], true⟩ :: rawLines bs
    else match rawLines bs with
      | [] => [⟨[b], false⟩]
      | l :: ls => { l with content := b :: l.content } :: ls

/-- Drops one carriage return that stands before the line feed. -/
def RawLine.body (l : RawLine) : Bytes :=
  if l.ended ∧ l.content.getLast? = some carriageReturn then l.content.dropLast else l.content

def lines (b : Bytes) : List (Option String) :=
  (rawLines b).map fun l => toString? l.body

def joinLines : List RawLine → Bytes
  | [] => []
  | l :: ls => l.content ++ (if l.ended then [lineFeed] else []) ++ joinLines ls

theorem joinLines_rawLines (b : Bytes) : joinLines (rawLines b) = b := by
  fun_induction rawLines b with
  | case1 => rfl
  | case2 bs ih => simp [joinLines, ih]
  | case3 b bs _ h ih => simp_all [joinLines]
  | case4 b bs _ l ls h ih => rw [h] at ih; simpa [joinLines] using ih

end Bytes
end Daybook
