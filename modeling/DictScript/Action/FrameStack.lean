import DictScript.Heap.Dict

/-!
The frames of running actions. A name means what the outermost frame that holds it says, so nothing
called later can shadow it.
-/
namespace DictScript

structure FrameStack where
  /-- Outermost first. -/
  frames : List DictId := []
deriving DecidableEq

namespace FrameStack

def depth (s : FrameStack) : Nat := s.frames.length

def push (s : FrameStack) (d : DictId) : FrameStack := ⟨s.frames ++ [d]⟩

def pop (s : FrameStack) : FrameStack := ⟨s.frames.dropLast⟩

def top? (s : FrameStack) : Option DictId := s.frames.getLast?

def get? (s : FrameStack) (h : Heap) (name : String) : Option Value :=
  (s.frames.find? fun d => h.holds d name).map fun d => h.get d name

end FrameStack
end DictScript
