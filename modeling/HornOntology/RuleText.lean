import HornOntology.Error
import HornOntology.Text.Blank

set_option autoImplicit false

/-! # Reading rule and query texts

A rule text is two conjunctions of atoms with an arrow between them; in a query text the head is a
selection of variables. Reading has two steps. The first only consults the registry: it gives a
rule whose constants are entities, or names that nobody has yet (`Constant`). Each such name claims
an identifier that nobody has (`Constants`), so that the text is refused where they run out. The
second step runs when the rule is known to be well made: it registers the new names as individuals,
in the order of their first occurrence. A text that is refused therefore leaves no trace in the
registry. -/

namespace HornOntology

/-- A constant of a text that is being read. -/
inductive Constant where
  /-- A registered individual. -/
  | known (id : EntityId)
  /-- The name of an individual that is still to be registered. -/
  | fresh (name : String)
deriving DecidableEq

namespace RuleText

/-! ## Terms -/

/-- The variable that an argument writes: a question mark and a name that is not empty. -/
def readVariable? : List Char → Option Variable
  | '?' :: c :: name => some ⟨String.ofList (c :: name)⟩
  | _ => none

/-- A text up to its first two carets, where the type of a literal is written. -/
def untyped : List Char → List Char
  | [] => []
  | c :: text => if c = '^' ∧ text.head? = some '^' then [] else c :: untyped text

/-- The name that a constant writes: what stands between quotes, or the text without its type and
    without leading hash signs. -/
def literal (arg : List Char) : List Char :=
  match arg with
  | '"' :: text =>
    if text.contains '"' then text.takeWhile (· ≠ '"')
    else (untyped arg).dropWhile (· = '#')
  | _ => (untyped arg).dropWhile (· = '#')

/-! ## The form of an atom -/

/-- Split a text, and name the text in the error if it is not balanced. -/
def split (sep : Text.Separator) (text : List Char) : Except TextError (List (List Char)) :=
  (Text.splitTopLevel sep text).mapError fun cause =>
    .malformed (String.ofList text) (.imbalance cause)

/-- A text before and after its first opening parenthesis. -/
def splitOpen : List Char → Option (List Char × List Char)
  | [] => none
  | c :: text =>
    if c = '(' then some ([], text)
    else (splitOpen text).map fun (before, after) => (c :: before, after)

/-- A text without the closing parenthesis at its end. -/
def stripClose (text : List Char) : Option (List Char) :=
  if text.getLast? = some ')' then some text.dropLast else none

/-- The arguments between the parentheses of an atom, without the blanks around each. -/
def arguments (inner : List Char) : Except TextError (List (List Char)) :=
  if (Text.trim inner).isEmpty then .ok []
  else (split .comma inner).map (·.map Text.trim)

/-- The name and the arguments of an atom, in a text `input`. -/
def splitAtom (input : String) (atom : List Char) :
    Except TextError (List Char × List (List Char)) := do
  let problem (p : String → SyntaxProblem) : TextError := .malformed input (p (String.ofList atom))
  let some (before, after) := splitOpen atom | throw (problem .missingOpen)
  let some inner := stripClose after | throw (problem .missingClose)
  let name := Text.trim before
  if name.isEmpty then throw (problem .missingName)
  let args ← arguments inner
  if args.any List.isEmpty then throw (problem .emptyArgument)
  return (name, args)

/-! ## Atoms and conjunctions -/

section Atoms

-- `constant` says what becomes of the name of a constant
variable {m : Type → Type} [Monad m] [MonadExcept Error m] (registry : Registry)
  (constant : String → m Constant)

/-- Read an argument. -/
def term (arg : List Char) : m (Term Constant) :=
  match readVariable? arg with
  | some v => return .var v
  | none => return .const (← constant (String.ofList (literal arg)))

/-- Read the atom of a class or property. -/
def relationalAtom (name : String) (args : List (List Char)) : m (Atom Constant) :=
  match registry.resolve name with
  | .error (.notFound _) => throw (.text (.unknownPredicate name))
  | .error e => throw (.registry e)
  | .ok id =>
    match registry.kind? id, args with
    | none, _ => throw (.text (.unknownPredicate name))
    | some .individual, _ => throw (.text (.unknownPredicate name))
    | some .cls, [arg] => do
      let arg ← term constant arg
      return .member id arg
    | some .cls, args => throw (.text (.arity name .cls 1 args.length))
    | some _, [subject, object] => do
      let subject ← term constant subject
      let object ← term constant object
      return .link id subject object
    | some kind, args => throw (.text (.arity name kind 2 args.length))

/-- Read the atom of a builtin. -/
def builtinAtom (name : String) (args : List (List Char)) : m (Atom Constant) :=
  match Builtin.ofName? name with
  | none => throw (.text (.unknownBuiltin name))
  | some op => do
    let args ← args.mapM (term constant)
    return .builtin op args

/-- Read one atom. -/
def atom (input : String) (text : List Char) : m (Atom Constant) :=
  if text.isEmpty then throw (.text (.malformed input .emptyAtom))
  else do
    let (name, args) ← ofExcept ((splitAtom input text).mapError .text)
    if Builtin.nameSpace.toList.isPrefixOf name then
      builtinAtom constant (String.ofList name) args
    else relationalAtom registry constant (String.ofList (name.dropWhile (· = '#'))) args

/-- Read atoms with carets between them. -/
def conjunction (input : String) (side : List Char) : m (List (Atom Constant)) := do
  let parts ← ofExcept ((split .caret side).mapError .text)
  parts.mapM fun part => atom registry constant input (Text.trim part)

end Atoms

/-- The two sides of the arrow. -/
def sides (text : String) : Except TextError (List Char × List Char) := do
  match ← split .arrow text.toList with
  | [body, head] => return (body, head)
  | [_] => throw (.malformed text .missingArrow)
  | _ => throw (.malformed text .repeatedArrow)

/-! ## Rules and queries -/

/-- Whether the head of a query selects distinct rows. -/
def isDistinct (input : String) (name : List Char) : Except TextError Bool :=
  match String.ofList name with
  | "sqwrl:select" => .ok false
  | "sqwrl:selectDistinct" => .ok true
  | other => .error (.malformed input (.notSelection other))

/-- A selected variable. -/
def selected (input : String) (arg : List Char) : Except TextError Variable :=
  match readVariable? arg with
  | some v => .ok v
  | none => .error (.malformed input (.selectedConstant (String.ofList arg)))

/-- Read the head of a query: whether its rows are distinct, and the selected variables. -/
def selection (input : String) (head : List Char) : Except TextError (Bool × List Variable) := do
  let (name, args) ← splitAtom input (Text.trim head)
  let distinct ← isDistinct input name
  let projection ← args.mapM (selected input)
  return (distinct, projection)

section Texts

variable {m : Type → Type} [Monad m] [MonadExcept Error m] (registry : Registry)
  (constant : String → m Constant)

/-- Read a rule, without registering anything. -/
def readRule (name text : String) : m (Rule Constant) := do
  let (body, head) ← ofExcept ((sides text).mapError .text)
  let body ← conjunction registry constant text body
  let head ← conjunction registry constant text head
  ofExcept ((Rule.ofParts name body head).mapError .rule)

/-- Read a query, without registering anything. -/
def readQuery (name text : String) : m (Query Constant) := do
  let (body, head) ← ofExcept ((sides text).mapError .text)
  let body ← conjunction registry constant text body
  let (distinct, projection) ← ofExcept ((selection text head).mapError .text)
  ofExcept ((Query.ofParts name body projection distinct).mapError .rule)

end Texts

/-! ## Constants -/

/-- What the name of a constant means. A registered name is interned once more, which only checks
    that it is the name of an individual. -/
def meaning (registry : Registry) (name : String) : Except Error Constant :=
  match registry.resolve name with
  | .ok id => ((registry.intern (registry.name id) .individual).1.map .known).mapError .registry
  | .error (.notFound _) => .ok (.fresh name)
  | .error e => .error (.registry e)

/-- The new names of a text that is being read, in the order of their first occurrence. Each has
    claimed an identifier; `next` is the last one that has not been tried. -/
structure Constants where
  fresh : List (String × EntityId)
  next : Nat

/-- No name has been met. -/
def Constants.start : Constants := ⟨[], 4294967295⟩

/-- The last of the first identifiers that nobody has, and the number of those before it. -/
def placeholder (registry : Registry) : Nat → Option (EntityId × Nat)
  | 0 => none
  | n + 1 =>
    match EntityId.ofRaw? (.ofNat (n + 1)) with
    | none => none
    | some id => if (registry.get? id).isNone then some (id, n) else placeholder registry n

/-- Reading a text, with the new names that it has met. -/
abbrev Reading := StateT Constants (Except Error)

/-- Claim an identifier for a constant that is new, where it is met first. -/
def claim (registry : Registry) : Constant → Reading Unit
  | .known _ => return ()
  | .fresh name => fun met =>
    match met.fresh.lookup name with
    | some _ => .ok ((), met)
    | none =>
      match placeholder registry met.next with
      | some (id, next) => .ok ((), ⟨met.fresh ++ [(name, id)], next⟩)
      | none => .error (.registry .exhausted)

/-- The constant with a name. -/
def constant (registry : Registry) (name : String) : Reading Constant := do
  let c ← ofExcept (meaning registry name)
  claim registry c
  return c

end RuleText

/-! ## Registering the new names -/

/-- The entity of a constant, which is registered if it is new. -/
def Constant.intern : Constant → RegistryM EntityId
  | known id => return id
  | fresh name => RegistryM.intern name .individual

/-- Run the second step of reading if the first was successful. -/
def commit {α β : Type} (intern : α → RegistryM β) (registry : Registry)
    (read : RuleText.Reading α) : Except Error β × Registry :=
  match read.run .start with
  | .error e => (.error e, registry)
  | .ok (draft, _) =>
    let (result, registry) := (intern draft).run registry
    (result.mapError .registry, registry)

/-- Read a rule; the new names of an accepted text are registered as individuals. -/
def Rule.parse (registry : Registry) (name text : String) :
    Except Error (Rule EntityId) × Registry :=
  commit (Rule.mapConstM Constant.intern) registry
    (RuleText.readRule registry (RuleText.constant registry) name text)

/-- Read a query; the new names of an accepted text are registered as individuals. -/
def Query.parse (registry : Registry) (name text : String) :
    Except Error (Query EntityId) × Registry :=
  commit (Query.mapConstM Constant.intern) registry
    (RuleText.readQuery registry (RuleText.constant registry) name text)

end HornOntology
