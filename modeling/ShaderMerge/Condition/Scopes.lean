import ShaderMerge.Table
import ShaderMerge.Condition.Truth

/-!
# Scopes of definedness

What is known about names while conditional groups are open.  Every open arm has a frame of its
own that holds only what the arm changed; a look-up goes from the innermost frame outwards, and
the root frame stays for ever.
-/

namespace ShaderMerge.Condition

/-- What one frame says about names. -/
abbrev Frame := Table String Truth

/-- The frames of the open arms over the root frame. -/
structure Scopes where
  /-- What is known outside of every arm. -/
  root : Frame
  /-- The frames of the open arms, innermost first. -/
  arms : List Frame
deriving DecidableEq, Inhabited

namespace Scopes

/-- Scopes with known names and no open arm; of several entries for a name the last counts. -/
def new (known : List (String × Bool)) : Scopes :=
  ⟨Table.ofList (known.map fun e => (e.1, Truth.ofBool e.2)), []⟩

/-- All frames, innermost first. -/
def frames (s : Scopes) : List Frame := s.arms ++ [s.root]

/-- What is known of a name. -/
def get (s : Scopes) (name : String) : Truth :=
  (s.frames.findSome? (·.get? name)).getD .unknown

/-- Note something about a name in the innermost frame. -/
def set (s : Scopes) (name : String) (value : Truth) : Scopes :=
  match s.arms with
  | [] => { s with root := s.root.insert name value }
  | frame :: outer => { s with arms := frame.insert name value :: outer }

/-- Note several things in the innermost frame. -/
def setAll (s : Scopes) (values : List (String × Truth)) : Scopes :=
  values.foldl (fun s e => s.set e.1 e.2) s

/-- Open a frame. -/
def push (s : Scopes) : Scopes := { s with arms := ∅ :: s.arms }

/-- Close the innermost frame and give what it held.  The root frame is not closed. -/
def pop (s : Scopes) : Frame × Scopes :=
  match s.arms with
  | [] => (∅, s)
  | frame :: outer => (frame, { s with arms := outer })

/-- The number of frames, the root among them. -/
def depth (s : Scopes) : Nat := s.arms.length + 1

/-! ## Small laws -/

/-- A new frame hides nothing. -/
@[simp] theorem get_push (s : Scopes) (name : String) : s.push.get name = s.get name := rfl

/-- A look-up answers what was set last for its name, and else what it answered before. -/
theorem get_set (s : Scopes) (key name : String) (value : Truth) :
    (s.set key value).get name = if name = key then value else s.get name := by
  obtain ⟨root, arms⟩ := s
  cases arms with
  | nil => by_cases h : name = key <;> simp [set, get, frames, List.findSome?_cons, Table.get?_insert, h]
  | cons frame outer =>
    by_cases h : name = key <;> simp [set, get, frames, List.findSome?_cons, Table.get?_insert, h]

end Scopes

end ShaderMerge.Condition
