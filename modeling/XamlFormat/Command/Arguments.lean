import XamlFormat.Command.Options

/-! Reading a command line. Words that start with a hyphen are options, the others are inputs or the
values of options; behind two hyphens everything is an input. -/
namespace XamlFormat
namespace Arguments

/-- Words that are read but not yet accepted. They are accepted when the next option or input shows
that they are complete. -/
inductive Pending where
  | nothing
  /-- An option with the word behind it, once it is there. -/
  | option (o : CommandOption) (value : Option String)
  | inputs (paths : List String)

structure State where
  invocation : Invocation := {}
  /-- The options given so far, except those that may be given again. -/
  given : List String := []
  pending : Pending := .nothing

namespace State

def once (st : State) (o : CommandOption) : Except UsageFault State :=
  if st.given.contains o.name then .error (.conflict o.written o.written)
  else .ok { st with given := o.name :: st.given }

def apply (f : Invocation → Invocation) (st : State) : State :=
  { st with invocation := f st.invocation }

def acceptValue (st : State) (o : CommandOption) (value : String) : Except UsageFault State :=
  match o.effect with
  | .value read => do
    let st ← st.once o
    let f ← read value
    .ok (st.apply f)
  | .repeated add => .ok (st.apply (add value))
  | .toggle change => do
    let st ← st.once o
    if value = "true" then .ok (st.apply (CommandOption.changing (change true)))
    else if value = "false" then .ok (st.apply (CommandOption.changing (change false)))
    else .error (.invalidFlag value o.written)
  | _ => .error (.unneededValue value o.written)

/-- Accepts inputs, of which none may be empty. -/
def acceptInputs (st : State) (paths : List String) : Except UsageFault State :=
  if paths.any String.isEmpty then .error .emptyPath
  else
    .ok (st.apply fun i => { i with inputs := i.inputs ++ paths.map Path.ofString })

def settle (st : State) : Except UsageFault State :=
  let settled := { st with pending := .nothing }
  match st.pending with
  | .nothing => .ok settled
  | .option o none => .error (.missingValue o.written)
  | .option o (some value) => settled.acceptValue o value
  | .inputs paths => settled.acceptInputs paths

def takeOption (st : State) (o : CommandOption) (attached : Option String) :
    Except UsageFault State :=
  match o.effect, attached with
  | .switch f, none => do
    let st ← (← st.settle).once o
    .ok (st.apply f)
  | .help, none => do
    let _ ← st.settle
    .error .help
  | .version, none => do
    let _ ← st.settle
    .error .version
  | .toggle _, none => do (← st.settle).acceptValue o "true"
  | .switch _, some value => .error (.unneededValue value o.written)
  | .help, some value => .error (.unneededValue value o.written)
  | .version, some value => .error (.unneededValue value o.written)
  | _, some value => do (← st.settle).acceptValue o value
  | _, none => do
    let st ← st.settle
    .ok { st with pending := .option o none }

def takesValue (o : CommandOption) : Bool :=
  match o.effect with
  | .value _ => true
  | .repeated _ => true
  | _ => false

/-- Takes the letters behind a single hyphen. What follows the letter of an option with a value is
that value. -/
def takeLetters (st : State) : Chars → Except UsageFault State
  | [] => .ok st
  | letter :: rest =>
    match CommandOption.ofLetter? letter with
    | none => .error (.unknownOption (String.ofList ['-', letter]))
    | some o =>
      if takesValue o then
        match rest with
        | [] => st.takeOption o none
        | '=' :: value => st.takeOption o (some (String.ofList value))
        | value => st.takeOption o (some (String.ofList value))
      else do
        let st ← st.takeOption o none
        st.takeLetters rest

/-- Takes the name behind two hyphens, with the value behind an equals sign. -/
def takeName (st : State) (word : Chars) : Except UsageFault State :=
  let (name, value) :=
    match Text.cutAt '=' word with
    | some (name, value) => (name, some (String.ofList value))
    | none => (word, none)
  match CommandOption.ofName? (String.ofList name) with
  | none => .error (.unknownOption (String.ofList ('-' :: '-' :: name)))
  | some o => st.takeOption o value

def takeInput (st : State) (word : String) : Except UsageFault State :=
  match st.pending with
  | .inputs paths => .ok { st with pending := .inputs (paths ++ [word]) }
  | _ => do
    let st ← st.settle
    .ok { st with pending := .inputs [word] }

/-- Takes a word that is no option: the value that an option waits for, or an input. -/
def takeWord (st : State) (word : String) : Except UsageFault State :=
  match st.pending with
  | .option o none => .ok { st with pending := .option o (some word) }
  | _ => st.takeInput word

def takeInputs (st : State) : List String → Except UsageFault State
  | [] => .ok st
  | word :: rest => do
    let st ← st.takeInput word
    st.takeInputs rest

def takeAll (st : State) : List String → Except UsageFault State
  | [] => .ok st
  | word :: rest =>
    match word.toList with
    | ['-', '-'] => st.takeInputs rest
    | '-' :: '-' :: name => do (← st.takeName name).takeAll rest
    | '-' :: letter :: letters => do (← st.takeLetters (letter :: letters)).takeAll rest
    | _ => do (← st.takeWord word).takeAll rest

end State

/-- Checking and writing to the output exclude each other. -/
def checkExclusive (i : Invocation) : Except UsageFault Invocation :=
  if i.passive && i.writeToOutput then .error (.conflict "--passive" "--write-to-stdout") else .ok i

def read (words : List String) : Except UsageFault Invocation := do
  let st ← State.takeAll {} words
  let st ← st.settle
  checkExclusive st.invocation

end Arguments
end XamlFormat
