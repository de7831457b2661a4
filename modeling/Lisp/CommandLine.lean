namespace Lisp

inductive Request where
  | help
  | version
  | misuse
  | session (quiet : Bool)
  | script (path : String)

structure Given where
  quiet : Bool
  file : Option String

namespace Given

def none : Given := ⟨false, Option.none⟩

def setQuiet (g : Given) : Except Request Given :=
  if g.quiet then .error .misuse else .ok { g with quiet := true }

def setFile (g : Given) (path : String) : Except Request Given :=
  if path = "" ∨ g.file.isSome then .error .misuse else .ok { g with file := some path }

def short : Given → List Char → Except Request Given
  | g, [] => .ok g
  | g, c :: cs =>
    if c = 'q' then
      match g.setQuiet with
      | .ok g => short g cs
      | .error r => .error r
    else if c = 'h' then .error .help
    else if c = 'V' then .error .version
    else .error .misuse

def long (g : Given) (name : List Char) : Except Request Given :=
  if name = "quiet".toList then g.setQuiet
  else if name = "help".toList then .error .help
  else if name = "version".toList then .error .version
  else .error .misuse

def word (g : Given) (arg : String) : Except Request Given :=
  match arg.toList with
  | '-' :: '-' :: name => g.long name
  | '-' :: c :: cs => g.short (c :: cs)
  | _ => g.setFile arg

/-- The first word that settles the matter does so, whatever follows. After two hyphens there are
no more options. -/
def words : Given → List String → Except Request Given
  | g, [] => .ok g
  | g, arg :: args =>
    if arg = "--" then args.foldlM setFile g
    else
      match g.word arg with
      | .ok g => words g args
      | .error r => .error r

end Given

def Request.ofWords (args : List String) : Request :=
  match Given.none.words args with
  | .ok ⟨_, some path⟩ => .script path
  | .ok ⟨quiet, none⟩ => .session quiet
  | .error r => r

end Lisp
