import Daybook.Command.Lexeme

/-!
Tokens by rules. At every place of a line the rule that takes the most characters is followed, and
of two that take as many the weightier one. How such a rule is found is left open; `Match.longest?` is
one way.
-/
namespace Daybook

inductive Pattern where
  | text (letters : List Char)
  | many (kind : Char → Bool)

namespace Pattern

def Takes : Pattern → List Char → Prop
  | text letters, w => w.map Keyword.fold = letters.map Keyword.fold
  | many kind, w => w ≠ [] ∧ ∀ c ∈ w, kind c = true

def weight : Pattern → Nat
  | text letters => letters.length
  | many _ => 1

def reach? : Pattern → List Char → Option Nat
  | text letters, cs =>
    if (cs.take letters.length).map Keyword.fold = letters.map Keyword.fold then
      some letters.length
    else none
  | many kind, cs =>
    let n := (cs.takeWhile kind).length
    if n = 0 then none else some n

end Pattern

structure TokenRule where
  pattern : Pattern
  token : Option Token

namespace TokenRule

def blanks : TokenRule := ⟨.many isSeparator, none⟩

def ofKeyword (k : Keyword) : TokenRule := ⟨.text k.text.toList, some (.keyword k)⟩

def word : TokenRule := ⟨.many (!isSeparator ·), some .word⟩

def all : List TokenRule := blanks :: Keyword.all.map ofKeyword ++ [word]

theorem mem_all_iff {r : TokenRule} :
    r ∈ all ↔ r = blanks ∨ (∃ k, r = ofKeyword k) ∨ r = word := by
  simp only [all, List.cons_append, List.mem_cons, List.mem_append, List.mem_map, List.not_mem_nil,
    or_false, Keyword.mem_all, true_and, eq_comm]

end TokenRule

structure Match where
  rule : TokenRule
  length : Nat

namespace Match

structure Opens (m : Match) (cs : List Char) : Prop where
  rule_mem : m.rule ∈ TokenRule.all
  length_le : m.length ≤ cs.length
  takes : m.rule.pattern.Takes (cs.take m.length)

def Beats (m n : Match) : Prop :=
  n.length < m.length ∨ n.length = m.length ∧ n.rule.pattern.weight < m.rule.pattern.weight

instance (m n : Match) : Decidable (m.Beats n) := by
  unfold Beats
  infer_instance

def lexemes (m : Match) (pos : Nat) (cs : List Char) : List Lexeme :=
  m.rule.token.toList.map fun t => ⟨t, ⟨pos, pos + byteLength (cs.take m.length)⟩⟩

end Match

/-- A choice of matches: one that no other beats, wherever there is one. -/
structure PicksLongest (next : List Char → Option Match) : Prop where
  opens : ∀ {cs m}, next cs = some m → m.Opens cs
  unbeaten : ∀ {cs m}, next cs = some m → ∀ n : Match, n.Opens cs → ¬ n.Beats m
  complete : ∀ {cs}, next cs = none → ∀ n : Match, ¬ n.Opens cs

structure LexError where
  position : Nat
  deriving DecidableEq, Repr

/-- The tokens of a text that starts at byte `pos`, after so many characters that are taken already. -/
def scan (next : List Char → Option Match) :
    (pos taken : Nat) → List Char → Except LexError (List Lexeme)
  | _, _, [] => .ok []
  | pos, taken + 1, c :: cs => scan next (pos + c.utf8Size) taken cs
  | pos, 0, c :: cs =>
    match next (c :: cs) with
    | none => .error ⟨pos⟩
    | some m =>
      (scan next (pos + c.utf8Size) (m.length - 1) cs).map (m.lexemes pos (c :: cs) ++ ·)

def tokenize (next : List Char → Option Match) (line : String) : Except LexError (List Lexeme) :=
  scan next 0 0 line.toList

namespace Match

def best? : List Match → Option Match
  | [] => none
  | m :: ms =>
    match best? ms with
    | none => some m
    | some n => if n.Beats m then some n else some m

def longest? (cs : List Char) : Option Match :=
  best? (TokenRule.all.filterMap fun r => (r.pattern.reach? cs).map (⟨r, ·⟩))

end Match
end Daybook
