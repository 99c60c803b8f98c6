/-
  LiveWorkspace/Json/Value.lean
  =============================
  **JSON values, built from tokens.**

  A value is built by a machine with a stack: each open array or object is a frame
  that collects what has been read inside it.  Members of an object keep their order
  and their repetitions, since a reader of a document may have to object to them.
-/
import LiveWorkspace.Json.Token

namespace LiveWorkspace.Json

/-! ### Values -/

/-- A JSON value. A string or a key without text holds half of a surrogate pair. -/
inductive Value where
  | null
  | bool (b : Bool)
  | number (digits : List Char)
  | string (text : Option String)
  | array (items : List Value)
  | object (members : List (Option String × Value))
deriving Repr

abbrev Member := Option String × Value

/-! ### The building machine -/

/-- An array or object that is still open, with what it holds so far, last one first.
    An open object is waiting for the value of `key`. -/
inductive Frame where
  | array (rev : List Value)
  | object (rev : List Member) (key : Option String)
deriving Repr

/-- What the machine has just seen and so what may follow. -/
inductive Building where
  | value (stack : List Frame)
  | itemOrEnd (stack : List Frame)
  | keyOrEnd (stack : List Frame)
  | key (rev : List Member) (stack : List Frame)
  | colon (rev : List Member) (key : Option String) (stack : List Frame)
  | done (v : Value) (stack : List Frame)
deriving Repr

/-- Read the first token of a value. -/
def Building.beginValue? (stack : List Frame) : Token → Option Building
  | .null => some (.done .null stack)
  | .bool b => some (.done (.bool b) stack)
  | .number digits => some (.done (.number digits) stack)
  | .string text => some (.done (.string text) stack)
  | .openArray => some (.itemOrEnd stack)
  | .openObject => some (.keyOrEnd stack)
  | _ => none

/-- Read one token. -/
def Building.step? : Building → Token → Option Building
  | .value stack, t => beginValue? stack t
  | .itemOrEnd stack, t =>
    if t = .closeArray then some (.done (.array []) stack) else beginValue? (.array [] :: stack) t
  | .keyOrEnd stack, t =>
    match t with
    | .closeObject => some (.done (.object []) stack)
    | .string text => some (.colon [] text stack)
    | _ => none
  | .key rev stack, t =>
    match t with
    | .string text => some (.colon rev text stack)
    | _ => none
  | .colon rev k stack, t => if t = .colon then some (.value (.object rev k :: stack)) else none
  | .done v (.array rev :: stack), t =>
    match t with
    | .comma => some (.value (.array (v :: rev) :: stack))
    | .closeArray => some (.done (.array (v :: rev).reverse) stack)
    | _ => none
  | .done v (.object rev k :: stack), t =>
    match t with
    | .comma => some (.key ((k, v) :: rev) stack)
    | .closeObject => some (.done (.object ((k, v) :: rev).reverse) stack)
    | _ => none
  | .done _ [], _ => none

/-- The value that some tokens are. -/
def Value.ofTokens? (ts : List Token) : Option Value :=
  match ts.foldlM Building.step? (.value []) with
  | some (.done v []) => some v
  | _ => none

/-- The value that a text is. -/
def Value.parse? (text : String) : Option Value := (tokens? text).bind Value.ofTokens?

end LiveWorkspace.Json
