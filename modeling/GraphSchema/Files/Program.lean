import GraphSchema.Files.Operations

/-!
# Programs on files

A program is a sequence of single calls, each with what is done at its reply.
What a call does is left to the file system that the program runs on, so that a
program can also be stopped between two calls, run beside others, or met with
failures.
-/

namespace GraphSchema

/-- A call on files. -/
inductive FileCall where
  | makeDirectories (path : String)
  | remove (path : String)
  | write (path text : String)
  | rename (source target : String)
  /-- Whether a path leads to something. -/
  | probe (path : String)
  | read (path : String)
deriving DecidableEq, Repr

/-- What a call is answered with. -/
abbrev FileCall.Reply : FileCall → Type
  | probe _ => Bool
  | read _ => Except FileError String
  | _ => Except FileError Unit

/-- A program that makes calls on files and ends with a result. -/
inductive FileProgram (α : Type) where
  | done (result : α)
  | call (request : FileCall) (next : request.Reply → FileProgram α)

namespace FileProgram

variable {α β σ : Type}

/-- A program and then another one, chosen by the result. -/
def bind (p : FileProgram α) (next : α → FileProgram β) : FileProgram β :=
  match p with
  | .done a => next a
  | .call request rest => .call request fun reply => (rest reply).bind next

instance : Monad FileProgram where
  pure := .done
  bind := bind

/-- Makes a directory, and the directories above it as far as they are missing. -/
def makeDirectories (path : String) : FileProgram (Except FileError Unit) :=
  .call (.makeDirectories path) .done

/-- Removes a file or a link. -/
def remove (path : String) : FileProgram (Except FileError Unit) := .call (.remove path) .done

/-- Puts a file with a text at a path. -/
def write (path text : String) : FileProgram (Except FileError Unit) :=
  .call (.write path text) .done

/-- Moves a file to another path, in place of one there. -/
def rename (source target : String) : FileProgram (Except FileError Unit) :=
  .call (.rename source target) .done

/-- Whether a path leads to something. -/
def probe (path : String) : FileProgram Bool := .call (.probe path) .done

/-- Reads the text of a file. -/
def read (path : String) : FileProgram (Except FileError String) := .call (.read path) .done

/-- Runs a program on a file system, given by what each call replies and leaves behind. -/
def run (answer : (request : FileCall) → σ → request.Reply × σ) : FileProgram α → σ → α × σ
  | .done a, s => (a, s)
  | .call request next, s =>
      let (reply, after) := answer request s
      run answer (next reply) after

theorem run_bind (answer : (request : FileCall) → σ → request.Reply × σ) (p : FileProgram α)
    (next : α → FileProgram β) (s : σ) :
    run answer (p.bind next) s = run answer (next (run answer p s).1) (run answer p s).2 := by
  induction p generalizing s with
  | done a => rfl
  | call request rest ih => exact ih _ _

end FileProgram

namespace FileTree

/-- What a call does to a tree at a time. -/
def answer (now : Int) : (request : FileCall) → FileTree → request.Reply × FileTree
  | .makeDirectories path, t => t.makeDirectories path
  | .remove path, t => t.settle (t.remove path)
  | .write path text, t => t.settle (t.write path text.toUTF8 now)
  | .rename source target, t => t.settle (t.rename source target)
  | .probe path, t => (t.leadsSomewhere path, t)
  | .read path, t => (t.readText path, t)

end FileTree

end GraphSchema
