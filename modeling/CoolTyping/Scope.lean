import CoolTyping.TypeName

/-!
# Scopes

The variables in sight at a place of a program, in nested frames. An inner variable hides outer ones
of its name.
-/

namespace CoolTyping

/-- Frames with the innermost first. In a frame a later variable hides earlier ones of its name and
stands before them. -/
structure Scope where
  frames : List (List (String × TypeName))

namespace Scope

def empty : Scope := ⟨[]⟩

/-- Opens a frame. -/
def push (s : Scope) : Scope := ⟨[] :: s.frames⟩

/-- Closes the innermost frame, if any is open. -/
def pop (s : Scope) : Scope := ⟨s.frames.tail⟩

/-- Declares a variable in the innermost frame. Where none is open this opens one. -/
def declare (s : Scope) (name : String) (ty : TypeName) : Scope :=
  match s.frames with
  | [] => ⟨[[(name, ty)]]⟩
  | frame :: frames => ⟨((name, ty) :: frame) :: frames⟩

/-- The type of the innermost variable of that name. -/
def lookup? (s : Scope) (name : String) : Option TypeName :=
  s.frames.findSome? (·.lookup name)

end Scope

end CoolTyping
