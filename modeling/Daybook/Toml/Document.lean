import Daybook.Toml.Quoted
import Daybook.Toml.Syntax
import Daybook.Toml.Value

/-!
What a TOML 1.1 document stands for. Its statements are taken in order, and the first flaw in that
order counts; a text without the structure of a document is malformed whatever its words are.
-/
namespace Daybook.Toml

inductive Flaw where
  | malformed
  | deepKey
  deriving DecidableEq, Repr

def isBareKey (c : Char) : Bool := c.isAlphanum || c == '_' || c == '-'

def Word.name? : Word → Option String
  | .bare text => if !text.isEmpty && text.all isBareKey then some (String.ofList text) else none
  | .quoted q => if q.tripled then none else q.text?

def Word.value? : Word → Option Value
  | .bare text =>
    if text == "true".toList then some (.boolean true)
    else if text == "false".toList then some (.boolean false)
    else if isScalar text then some .scalar
    else none
  | .quoted q => q.text?.map .string

def wanted : Option α → Except Flaw α
  | some a => .ok a
  | none => .error .malformed

def names (k : Key) : Except Flaw (List String) := do
  let names ← k.mapM fun w => wanted w.name?
  if maxDepth < names.length then throw .deepKey
  return names

mutual

def Raw.value : Raw → Except Flaw Value
  | .word w => wanted w.value?
  | .array items => do return .array (← values items)
  | .table pairs => do return .table .braces (← entries [] pairs)

def values : List Raw → Except Flaw (List Value)
  | [] => .ok []
  | r :: rs => do return (← r.value) :: (← values rs)

def entries (es : Entries) : List (Key × Raw) → Except Flaw Entries
  | [] => .ok es
  | (k, r) :: rest => do
    let names ← names k
    let v ← r.value
    entries (← wanted (define v names es)) rest

end

structure Document where
  root : Entries
  section_ : List String

namespace Document

def empty : Document := ⟨[], []⟩

def define (d : Document) (key : List String) (v : Value) : Option Document :=
  if d.section_.isEmpty then (Toml.define v key d.root).map fun root => { d with root := root }
  else (alter (defineIn key v) d.section_ d.root).map fun root => { d with root := root }

def add (d : Document) : Statement → Except Flaw Document
  | .header doubled k => do
    let names ← names k
    let root ← wanted (alter (if doubled then openNext else openTable) names d.root)
    return ⟨root, names⟩
  | .pair k r => do
    let names ← names k
    wanted (d.define names (← r.value))

end Document

def read (text : String) : Except Flaw Entries := do
  let statements ← wanted (statements text)
  return (← statements.foldlM Document.add .empty).root

end Daybook.Toml
