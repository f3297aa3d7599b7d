import Daybook.Calendar.Date

/-! Days of the week, their letters, and sets of them. -/
namespace Daybook

inductive Weekday where
  | mon | tue | wed | thu | fri | sat | sun
  deriving DecidableEq, Repr

namespace Weekday

def all : List Weekday := [mon, tue, wed, thu, fri, sat, sun]

def index : Weekday → Nat
  | mon => 0 | tue => 1 | wed => 2 | thu => 3 | fri => 4 | sat => 5 | sun => 6

def letter : Weekday → Char
  | mon => 'M' | tue => 'T' | wed => 'W' | thu => 'R' | fri => 'F' | sat => 'S' | sun => 'U'

def name : Weekday → String
  | mon => "Mon" | tue => "Tue" | wed => "Wed" | thu => "Thu" | fri => "Fri" | sat => "Sat"
  | sun => "Sun"

def ofLetter? (c : Char) : Option Weekday :=
  all.find? fun d => d.letter == c.toUpper

@[simp] theorem ofLetter?_letter (d : Weekday) : ofLetter? d.letter = some d := by
  cases d <;> decide

theorem mem_all (d : Weekday) : d ∈ all := by cases d <;> decide

theorem index_injective {d e : Weekday} (h : d.index = e.index) : d = e := by
  cases d <;> cases e <;> first | rfl | cases h

end Weekday

def Date.weekdayOf (n : Int) : Weekday :=
  match (n % 7).toNat with
  | 0 => .mon | 1 => .tue | 2 => .wed | 3 => .thu | 4 => .fri | 5 => .sat | _ => .sun

def Date.weekday (d : Date) : Weekday := Date.weekdayOf d.number

theorem Date.index_weekdayOf (n : Int) : ((Date.weekdayOf n).index : Int) = n % 7 := by
  have h : n % 7 = ((n % 7).toNat : Int) := by omega
  have hlt : (n % 7).toNat < 7 := by omega
  rw [h, Date.weekdayOf]
  generalize (n % 7).toNat = k at hlt
  match k, hlt with
  | 0, _ | 1, _ | 2, _ | 3, _ | 4, _ | 5, _ | 6, _ => rfl

/-- A set of weekdays, one bit for each, Monday lowest. -/
structure WeekdaySet where
  bits : BitVec 7
  deriving DecidableEq, Repr

namespace WeekdaySet

def empty : WeekdaySet := ⟨0⟩

def contains (s : WeekdaySet) (d : Weekday) : Bool := s.bits.getLsbD d.index

def insert (s : WeekdaySet) (d : Weekday) : WeekdaySet := ⟨s.bits ||| (1#7 <<< d.index)⟩

def toList (s : WeekdaySet) : List Weekday := Weekday.all.filter s.contains

def ofList (ds : List Weekday) : WeekdaySet := ds.foldl insert empty

def size (s : WeekdaySet) : Nat := s.toList.length

def isEmpty (s : WeekdaySet) : Bool := s.bits == 0

instance : Membership Weekday WeekdaySet := ⟨fun s d => s.contains d = true⟩
instance (s : WeekdaySet) (d : Weekday) : Decidable (d ∈ s) :=
  inferInstanceAs (Decidable (s.contains d = true))

def letters (s : WeekdaySet) : String := String.ofList (s.toList.map Weekday.letter)

def listing (s : WeekdaySet) : String :=
  "\x7b" ++ ", ".intercalate (s.toList.map Weekday.name) ++ "\x7d"

theorem mem_def {s : WeekdaySet} {d : Weekday} : d ∈ s ↔ s.contains d = true := Iff.rfl

def readLetters : List Char → Except Char (List Weekday)
  | [] => .ok []
  | c :: cs =>
    match Weekday.ofLetter? c with
    | none => .error c
    | some d => (readLetters cs).map (d :: ·)

def read (text : String) : Except Char WeekdaySet :=
  (readLetters text.toList).map ofList

@[simp] theorem not_mem_empty (d : Weekday) : d ∉ empty := by cases d <;> decide

@[simp] theorem mem_insert {s : WeekdaySet} {d e : Weekday} : d ∈ s.insert e ↔ d = e ∨ d ∈ s := by
  cases d <;> cases e <;> simp [mem_def, contains, insert, Weekday.index]

@[simp] theorem mem_toList {s : WeekdaySet} {d : Weekday} : d ∈ s.toList ↔ d ∈ s := by
  simp [toList, Weekday.mem_all, mem_def]

theorem ext {s t : WeekdaySet} (h : ∀ d, d ∈ s ↔ d ∈ t) : s = t := by
  obtain ⟨a⟩ := s
  obtain ⟨b⟩ := t
  congr
  apply BitVec.eq_of_getLsbD_eq
  intro i hi
  have key : ∀ d : Weekday, a.getLsbD d.index = b.getLsbD d.index := fun d =>
    Bool.eq_iff_iff.2 (h d)
  match i, hi with
  | 0, _ => exact key .mon
  | 1, _ => exact key .tue
  | 2, _ => exact key .wed
  | 3, _ => exact key .thu
  | 4, _ => exact key .fri
  | 5, _ => exact key .sat
  | 6, _ => exact key .sun

theorem mem_ofList {ds : List Weekday} {d : Weekday} : d ∈ ofList ds ↔ d ∈ ds := by
  suffices ∀ s : WeekdaySet, d ∈ ds.foldl insert s ↔ d ∈ ds ∨ d ∈ s by simpa [ofList] using this empty
  induction ds with
  | nil => simp
  | cons e ds ih => intro s; grind [mem_insert]

theorem ofList_toList (s : WeekdaySet) : ofList s.toList = s :=
  ext fun d => by simp [mem_ofList]

end WeekdaySet
end Daybook
