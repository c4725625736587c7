import Mathlib.Data.List.Basic

/-!
# Format strings of printf

`printf_iterator` of `printf.c`: the iterator over the substitutions of a format string, with its contracts and with the memory of the
string up to its null. `none` is a failed contract or invariant, or a read behind the null.
-/

namespace CgSql.Printf

/-! ## The iterator -/

/-- `printf_flags`. -/
inductive Flag
  | minus | plus | space | zero | hash | comma | bang
  deriving DecidableEq

/-- `printf_state`. -/
inductive State
  | start | percent | flag | width | widthNumeric | dot | precision | lengthLong | lengthLongLong | type
  deriving DecidableEq

/-- `printf_width`. -/
inductive Width
  | none | numeric | star
  deriving DecidableEq

/-- `printf_length`. -/
inductive Length
  | default | long | longLong
  deriving DecidableEq

/-- The values of `sem_t` that an iterator has. -/
inductive SemType
  | pending | ok | error | integer | longInteger | real | text
  deriving DecidableEq

/-- `printf_iterator`, with the last error in place of the tree that it is reported on. -/
structure Iterator where
  flags : List Flag
  formatString : List Char
  length : Length
  semType : SemType
  state : State
  width : Width
  report : Option (String × String)

/-- The null at the end of a string. -/
def nul : Char := Char.ofNat 0

/-- `printf_iterator_init`. -/
def init (formatString : List Char) : Iterator :=
  { flags := [], formatString := formatString, length := .default, semType := .pending, state := .start, width := .none, report := none }

/-- `printf_flag_of_char`. -/
def flagOfChar (c : Char) : Option Flag :=
  if c = '-' then some .minus else if c = '+' then some .plus else if c = ' ' then some .space else if c = '0' then some .zero
  else if c = '#' then some .hash else if c = ',' then some .comma else if c = '!' then some .bang else none

/-- `printf_iterator_error`. -/
def Iterator.error (it : Iterator) (msg subject : String) : Iterator := { it with semType := .error, report := some (msg, subject) }

/-- A plus and a space do not go together. -/
def plusOrSpace (f : Flag) : Bool := f = .plus ∨ f = .space

/-- `printf_iterator_add_flag_char`. -/
def addFlagChar (it : Iterator) (c : Char) : Option Iterator :=
  if it.semType = .pending ∧ it.state = .flag then
    (flagOfChar c).map fun flag =>
      if flag ∈ it.flags then it.error "CQL0411: duplicate flag in substitution" (String.singleton c)
      else if it.flags.any plusOrSpace ∧ plusOrSpace flag then it.error "CQL0412: cannot combine '+' flag with space flag" ""
      else { it with flags := it.flags ++ [flag] }
  else none

/-- `printf_set_width`. -/
def setWidth (it : Iterator) (width : Width) : Option Iterator :=
  if it.semType = .pending ∧ it.state = .width ∧ it.width = .none then
    if width = .none ∧ (.minus ∈ it.flags ∨ .zero ∈ it.flags) then
      some (it.error "CQL0413: width required when using flag in substitution" (if .minus ∈ it.flags then "-" else "0"))
    else some { it with width := width }
  else none

/-- `printf_set_length`. -/
def setLength (it : Iterator) (length : Length) : Option Iterator :=
  if it.semType = .pending ∧ (it.state = .lengthLong ∨ it.state = .lengthLongLong) then
    if length = .long then some (it.error "CQL0414: 'l' length specifier has no effect; consider 'll' instead" "")
    else if length = .longLong ∧ .bang ∈ it.flags then
      some (it.error "CQL0415: length specifier cannot be combined with '!' flag" "")
    else some { it with length := length }
  else none

/-- What the switch over type specifiers sets: the flags that are valid, whether a length is allowed, and the type. -/
structure TypeSpec where
  validFlags : List Flag
  allowsLength : Bool
  semType : Length → SemType

/-- A 32-bit integer, or one of 64 bits with `ll`. -/
def integerType (length : Length) : SemType := if length = .longLong then .longInteger else .integer

/-- The switch over type specifiers. -/
def typeSpec (c : Char) : Option TypeSpec :=
  if c = 'd' ∨ c = 'i' then some ⟨[.minus, .plus, .space, .zero, .comma], true, integerType⟩
  else if c = 'u' then some ⟨[.minus, .zero], true, integerType⟩
  else if c = 'f' ∨ c = 'e' ∨ c = 'E' ∨ c = 'g' ∨ c = 'G' then some ⟨[.minus, .zero, .bang, .hash], false, fun _ => .real⟩
  else if c = 'x' ∨ c = 'X' ∨ c = 'o' then some ⟨[.minus, .zero, .hash], true, integerType⟩
  else if c = 's' then some ⟨[.minus, .bang], false, fun _ => .text⟩
  else none

/-- The type specifiers that CQL does not allow. -/
def notAllowed (c : Char) : Bool := c = 'c' ∨ c = 'z' ∨ c = 'p' ∨ c = 'n' ∨ c = 'q' ∨ c = 'Q' ∨ c = 'w'

/-- `printf_iterator_set_type_char`. -/
def setTypeChar (it : Iterator) (c : Char) : Option Iterator :=
  if it.semType = .pending ∧ it.state = .type then
    match typeSpec c with
    | none =>
      some (it.error (if notAllowed c then "CQL0416: type specifier not allowed in CQL" else "CQL0417: unrecognized type specifier")
        (String.singleton c))
    | some spec =>
      let it := { it with semType := spec.semType it.length }
      if ¬it.flags.all (· ∈ spec.validFlags) then
        some (it.error "CQL0418: type specifier combined with inappropriate flags" (String.singleton c))
      else if it.length ≠ .default ∧ ¬spec.allowsLength then
        some (it.error "CQL0419: type specifier cannot be combined with length specifier" (String.singleton c))
      else some it
  else none

/-- `format_string++`. -/
def advance (it : Iterator) : Option Iterator :=
  match it.formatString with
  | [] => none
  | _ :: rest => some { it with formatString := rest }

/-- `printf_iterator_reset`. -/
def reset (it : Iterator) : Option Iterator :=
  if it.state = .type ∧ it.semType ≠ .error ∧ it.semType ≠ .ok ∧ it.semType ≠ .pending then
    (advance it).map fun it => { it with flags := [], length := .default, semType := .pending, state := .start, width := .none }
  else none

/-- `printf_iterator_suspend_for_star`. -/
def suspendForStar (it : Iterator) : Option Iterator :=
  if it.state = .width ∧ it.width = .none ∧ it.formatString.head? = some '*' then do
    let it ← setWidth it .star
    if it.semType ≠ .error then advance { it with state := .dot } else none
  else none

/-- What a round of the loop of `printf_iterator_next` comes to. -/
inductive Round
  | again (it : Iterator)
  | ret (semType : SemType) (it : Iterator)

/-- `break` out of the switch: the character is consumed. -/
def consume (it : Iterator) : Option Round := (advance it).map .again

def isDigit (c : Char) : Bool := '0' ≤ c ∧ c ≤ '9'

/-- A round of the loop of `printf_iterator_next`. -/
def round (it : Iterator) : Option Round :=
  if it.semType ≠ .pending then some (.ret it.semType it)
  else do
    let c ← it.formatString.head?
    if c = nul then
      if it.state = .start then return .ret .ok { it with semType := .ok }
      else return .ret .error (it.error "CQL0420: incomplete substitution in format string" "")
    else
      match it.state with
      | .start => consume (if c = '%' then { it with state := .percent } else it)
      | .percent =>
        if c = '%' then consume { it with state := .start }
        else return .again { it with state := .flag }
      | .flag =>
        if (flagOfChar c).isSome then do consume (← addFlagChar it c)
        else return .again { it with state := .width }
      | .width =>
        if isDigit c then do
          let it ← setWidth it .numeric
          consume { it with state := .widthNumeric }
        else if c = '*' then do
          let it ← suspendForStar it
          return .ret .integer it
        else do
          let it ← setWidth it .none
          return .again { it with state := .dot }
      | .widthNumeric => if isDigit c then consume it else return .again { it with state := .dot }
      | .dot =>
        if c = '.' then consume { it with state := .precision }
        else return .again { it with state := .lengthLong }
      | .precision => if isDigit c then consume it else return .again { it with state := .lengthLong }
      | .lengthLong =>
        if c = 'l' then consume { it with state := .lengthLongLong }
        else do
          let it ← setLength it .default
          return .again { it with state := .type }
      | .lengthLongLong =>
        if c = 'l' then do
          let it ← setLength it .longLong
          consume { it with state := .type }
        else do
          let it ← setLength it .long
          return .again { it with state := .type }
      | .type => do
        let it ← setTypeChar it c
        if it.semType ≠ .error then return .ret it.semType (← reset it)
        else return .ret it.semType it

/-- The loop, for as many rounds. -/
def loop : (rounds : Nat) → Iterator → Option (SemType × Iterator)
  | 0, _ => none
  | rounds + 1, it => do
    match ← round it with
    | .again it => loop rounds it
    | .ret semType it => return (semType, it)

/-- `printf_iterator_next`. -/
def next (rounds : Nat) (it : Iterator) : Option (SemType × Iterator) :=
  if it.semType = .pending ∧ (it.state = .start ∨ it.width = .star) then loop rounds it else none

/-- Calls of `printf_iterator_next` until it returns that it is done or that there is an error: the types that it returned, and the
end. -/
def calls (rounds : Nat) : (calls : Nat) → Iterator → Option (List SemType × SemType)
  | 0, _ => none
  | n + 1, it => do
    let (semType, it) ← next rounds it
    if semType = .ok ∨ semType = .error then return ([], semType)
    else do
      let (types, done) ← calls rounds n it
      return (semType :: types, done)

/-! ## The grammar -/

/-- A width as it is written. -/
inductive WidthText
  | none
  | digits (ds : List Char)
  | star
  deriving DecidableEq

/-- A substitution. -/
structure Substitution where
  flags : List Flag
  width : WidthText
  precision : Option (List Char)
  longLong : Bool
  type : Char

def Flag.char : Flag → Char
  | minus => '-'
  | plus => '+'
  | space => ' '
  | zero => '0'
  | hash => '#'
  | comma => ','
  | bang => '!'

def WidthText.text : WidthText → List Char
  | none => []
  | digits ds => ds
  | star => ['*']

namespace Substitution

/-- The text behind the width. -/
def tailText (s : Substitution) : List Char :=
  ((s.precision.map ('.' :: ·)).getD []) ++ ((if s.longLong then ['l', 'l'] else []) ++ [s.type])

/-- The text of a substitution. -/
def text (s : Substitution) : List Char := '%' :: (s.flags.map Flag.char ++ (s.width.text ++ s.tailText))

def length (s : Substitution) : Length := if s.longLong then .longLong else .default

/-- A number does not start with a zero: that is a flag. -/
def WidthValid : WidthText → Prop
  | .none => True
  | .digits ds => ds.head?.any (fun c => isDigit c ∧ c ≠ '0') = true ∧ ds.all isDigit = true
  | .star => True

/-- The rules for flags, width and length. -/
structure Valid (s : Substitution) : Prop where
  flagsDistinct : s.flags.Nodup
  notPlusAndSpace : ¬(.plus ∈ s.flags ∧ .space ∈ s.flags)
  widthDigits : WidthValid s.width
  widthRequired : .minus ∈ s.flags ∨ .zero ∈ s.flags → s.width ≠ .none
  precisionDigits : ∀ ds ∈ s.precision, ds.all isDigit = true
  lengthNotBang : s.longLong = true → .bang ∉ s.flags
  typeFlags : ∃ spec, typeSpec s.type = some spec ∧ (∀ f ∈ s.flags, f ∈ spec.validFlags) ∧ (s.longLong = true → spec.allowsLength = true)

/-- The types of the arguments. -/
def types (s : Substitution) : List SemType :=
  (if s.width = .star then [.integer] else []) ++ ((typeSpec s.type).map fun spec => spec.semType s.length).toList

end Substitution

/-- A format string and the types of its arguments: ordinary characters, `%%`, and substitutions. -/
inductive Format : List Char → List SemType → Prop
  | nil : Format [] []
  | char {c : Char} {text : List Char} {types : List SemType} (hc : c ≠ '%') (h : Format text types) : Format (c :: text) types
  | percent {text : List Char} {types : List SemType} (h : Format text types) : Format ('%' :: '%' :: text) types
  | substitution {s : Substitution} {text : List Char} {types : List SemType} (hs : s.Valid) (h : Format text types) :
      Format (s.text ++ text) (s.types ++ types)

end CgSql.Printf
