import TensorAsm.Text.Blank
import TensorAsm.Text.Digit
/-!
Command line arguments: flags anywhere among the positional arguments, long ones also shortened as
long as they are unambiguous, values behind the flag or attached to it, short flags in one word,
and two dashes after which all is positional.
-/

namespace TensorAsm.Arguments

structure Flag (α : Type) where
  spellings : List String
  takesValue : Bool
  meaning : α

structure Match (α : Type) where
  flag : Flag α
  spelling : String
  attached : Option String

/-- The value of an argument. Two dashes are dropped from it, so that nothing is left where it is
those alone. -/
inductive Value where
  | text (s : String)
  | nothing
  deriving DecidableEq, Repr

namespace Value

def ofString (s : String) : Value := if s = "--" then .nothing else .text s

def text? : Value → Option String
  | .text s => some s
  | .nothing => none

end Value

inductive Token (α : Type) where
  | word (s : String)
  | dashes
  | flag (m : Match α)
  | unknown (s : String)

inductive Event (α : Type) where
  | positional (value : Value)
  | flag (meaning : α) (value : Option Value)
  deriving Repr

variable {α : Type}

def spelled? (flags : List (Flag α)) (spelling : String) : Option (Flag α) :=
  flags.find? (·.spellings.contains spelling)

def splitValue (s : String) : Option (String × String) :=
  if s.toList.contains '=' then
    let (name, value) := Text.cut '=' s.toList
    some (String.ofList name, String.ofList value)
  else none

def allSpellings (flags : List (Flag α)) : List (Flag α × String) :=
  flags.flatMap fun f => f.spellings.map fun s => (f, s)

def longMatches (flags : List (Flag α)) (s : String) : List (Match α) :=
  let (start, value) := match splitValue s with
    | some (name, value) => (name, some value)
    | none => (s, none)
  (allSpellings flags).filterMap fun (f, spelling) =>
    if start.toList.isPrefixOf spelling.toList then some ⟨f, spelling, value⟩ else none

def shortMatches (flags : List (Flag α)) (s : String) : List (Match α) :=
  (allSpellings flags).filterMap fun (f, spelling) =>
    if spelling.toList = s.toList.take 2 then
      some ⟨f, spelling, some (String.ofList (s.toList.drop 2))⟩
    else if s.toList.isPrefixOf spelling.toList then some ⟨f, spelling, none⟩
    else none

def isDigits (s : List Char) : Bool := !s.isEmpty && s.all Text.isDigit

def isNegativeNumber (s : String) : Bool :=
  match s.toList with
  | '-' :: digits =>
    let digits := if digits.getLast? = some '\n' then digits.dropLast else digits
    let (whole, fraction) := Text.cut '.' digits
    isDigits digits || (digits.contains '.' && whole.all Text.isDigit && isDigits fraction)
  | _ => false

/-- What a word is; `none` if it could be several flags. -/
def classify (flags : List (Flag α)) (s : String) : Option (Token α) :=
  match s.toList with
  | '-' :: second :: _ =>
    match spelled? flags s with
    | some f => some (.flag ⟨f, s, none⟩)
    | none =>
      match (splitValue s).bind fun (name, value) =>
          (spelled? flags name).map fun f => Match.mk f name (some value) with
      | some m => some (.flag m)
      | none =>
        match if second = '-' then longMatches flags s else shortMatches flags s with
        | [m] => some (.flag m)
        | _ :: _ :: _ => none
        | [] =>
          if isNegativeNumber s || s.toList.contains ' ' then some (.word s)
          else some (.unknown s)
  | _ => some (.word s)

def tokens (flags : List (Flag α)) : List String → Option (List (Token α))
  | [] => some []
  | "--" :: rest => some (.dashes :: rest.map .word)
  | s :: rest =>
    match classify flags s, tokens flags rest with
    | some t, some ts => some (t :: ts)
    | _, _ => none

def Token.isFlag : Token α → Bool
  | .flag _ | .unknown _ => true
  | _ => false

/-- Takes up to `n` words, with dashes around them, from the front. Of a word right behind the
dashes nothing is dropped, since they are dropped themselves. -/
def takeWords : Nat → List (Token α) → List Value × List (Token α)
  | 0, ts => ([], ts)
  | n + 1, .word s :: .dashes :: rest =>
    let (words, left) := takeWords n rest
    (.text s :: words, left)
  | n + 1, .word s :: rest =>
    let (words, left) := takeWords n rest
    (.ofString s :: words, left)
  | n + 1, .dashes :: .word s :: rest =>
    let (words, left) := takeWords n rest
    (.text s :: words, left)
  | _ + 1, ts => ([], ts)

def expand (flags : List (Flag α)) : Nat → Match α → List (Token α) →
    Option (List (Event α) × List (Token α))
  | 0, _, _ => none
  | fuel + 1, m, rest =>
    match m.attached, m.flag.takesValue with
    | some value, true => some ([.flag m.flag.meaning (some (.ofString value))], rest)
    | some value, false =>
      match m.spelling.toList, value.toList with
      | [_, _], c :: more =>
        let spelling := String.ofList ['-', c]
        match spelled? flags spelling with
        | none => none
        | some f =>
          let attached := if more.isEmpty then none else some (String.ofList more)
          (expand flags fuel ⟨f, spelling, attached⟩ rest).map fun (events, left) =>
            (.flag m.flag.meaning none :: events, left)
      | _, _ => none
    | none, false => some ([.flag m.flag.meaning none], rest)
    | none, true =>
      match rest with
      | .word s :: left => some ([.flag m.flag.meaning (some (.ofString s))], left)
      | _ => none

/-- The events of a command line up to its end or the first mistake, and whether it is in order. -/
def consume (flags : List (Flag α)) : Nat → Nat → List (Token α) → List (Event α) × Bool
  | 0, _, _ => ([], false)
  | fuel + 1, want, ts =>
    match ts with
    | .flag m :: rest =>
      match expand flags (ts.length + (m.attached.getD "").length + 1) m rest with
      | none => ([], false)
      | some (events, left) =>
        let (more, ok) := consume flags fuel want left
        (events ++ more, ok)
    | .unknown _ :: rest => ((consume flags fuel want rest).1, false)
    | _ =>
      let (words, left) := takeWords want ts
      let events := words.map Event.positional
      if left.any Token.isFlag then
        if words.isEmpty then
          ((consume flags fuel want (left.dropWhile (!·.isFlag))).1, false)
        else
          let (more, ok) := consume flags fuel (want - words.length) left
          (events ++ more, ok)
      else (events, left.isEmpty && words.length == want)

def parse (flags : List (Flag α)) (positionals : Nat) (args : List String) :
    List (Event α) × Bool :=
  match tokens flags args with
  | none => ([], false)
  | some ts => consume flags (ts.length + 1) positionals ts

end TensorAsm.Arguments
