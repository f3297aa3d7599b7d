/-! Values of a TOML document, and how its lines build the tables. -/
namespace Daybook.Toml

inductive Origin where
  | implicit
  | header
  | dotted
  | braces
  deriving DecidableEq, Repr

inductive Value where
  | string (text : String)
  | boolean (b : Bool)
  | scalar
  | array (items : List Value)
  | table (origin : Origin) (entries : List (String × Value))
  | tables (items : List Value)

abbrev Entries := List (String × Value)

def put (key : String) (v : Value) : Entries → Entries
  | [] => [(key, v)]
  | (k, w) :: es => if k = key then (k, v) :: es else (k, w) :: put key v es

/-- Adds a value under a dotted key. A key is set once; only tables made by dotted keys grow. -/
def define (v : Value) : List String → Entries → Option Entries
  | [], _ => none
  | [k], es => if (es.lookup k).isSome then none else some (put k v es)
  | k :: ks, es =>
    match es.lookup k with
    | none => (define v ks []).map fun sub => put k (.table .dotted sub) es
    | some (.table .dotted sub) => (define v ks sub).map fun sub => put k (.table .dotted sub) es
    | some _ => none

def alter (f : Option Value → Option Value) : List String → Entries → Option Entries
  | [], _ => none
  | [k], es => (f (es.lookup k)).map fun v => put k v es
  | k :: ks, es =>
    match es.lookup k with
    | none => (alter f ks []).map fun sub => put k (.table .implicit sub) es
    | some (.table .braces _) => none
    | some (.table origin sub) => (alter f ks sub).map fun sub => put k (.table origin sub) es
    | some (.tables items) =>
      match items.getLast? with
      | some (.table origin sub) =>
        (alter f ks sub).map fun sub => put k (.tables (items.dropLast ++ [.table origin sub])) es
      | _ => none
    | some _ => none

def openTable : Option Value → Option Value
  | none => some (.table .header [])
  | some (.table .implicit sub) => some (.table .header sub)
  | some _ => none

def openNext : Option Value → Option Value
  | none => some (.tables [.table .header []])
  | some (.tables items) => some (.tables (items ++ [.table .header []]))
  | some _ => none

def defineIn (key : List String) (v : Value) : Option Value → Option Value
  | some (.table origin es) => (define v key es).map (.table origin)
  | some (.tables items) =>
    match items.getLast? with
    | some (.table origin es) =>
      (define v key es).map fun es => .tables (items.dropLast ++ [.table origin es])
    | _ => none
  | _ => none

end Daybook.Toml
