import Mathlib.Data.List.Basic
import Mathlib.Logic.Function.Basic
import Mathlib.Tactic.NormNum

namespace ShellOS.Sched.Keyboard

open Function

def maxWaitingKeyboard : ℕ := 10

structure WaitingNode where
  process : ℕ
  next : ℕ

/-- The ring of waiting nodes by address, `waitingKeyboardList`, and the
`pstate` of the process at each pcb address. Address 0 is `NULL`. -/
structure Kernel where
  node : ℕ → WaitingNode
  current : ℕ
  tail : ℕ
  size : ℕ
  pstate : ℕ → ℕ

/-- The loop of `initScheduler` that makes the ring. The result is the nodes and
the last of them. -/
def linkNodes (node : ℕ → WaitingNode) (aux : ℕ) : List ℕ → (ℕ → WaitingNode) × ℕ
  | [] => (node, aux)
  | newNode :: newNodes =>
    let node := update node newNode ⟨0, 0⟩
    linkNodes (update node aux { node aux with next := newNode }) newNode newNodes

/-- The keyboard's part of `initScheduler`, with the addresses that `alloc`
returns for `current` and for the `maxWaitingKeyboard` nodes behind it. -/
def initScheduler (node : ℕ → WaitingNode) (pstate : ℕ → ℕ) (current : ℕ) (newNodes : List ℕ) :
    Kernel :=
  let r := linkNodes (update node current ⟨0, 0⟩) current newNodes
  ⟨update r.1 r.2 { r.1 r.2 with next := current }, current, current, 0, pstate⟩

/-- `waitForKeyboard` up to its call of `runScheduler`. -/
def waitForKeyboard (k : Kernel) (currentProcess : ℕ) : Kernel where
  node := update k.node k.tail { k.node k.tail with process := currentProcess }
  current := k.current
  tail := (k.node k.tail).next
  size := (k.size + 1) % 2 ^ 8
  pstate := update k.pstate currentProcess 0

def awakeKeyboardQueue (k : Kernel) : Kernel :=
  if k.size = 0 then k
  else
    { k with
      size := k.size - 1
      pstate := update k.pstate (k.node k.current).process 1
      current := (k.node k.current).next }

def entries (node : ℕ → WaitingNode) : ℕ → ℕ → List ℕ
  | 0, _ => []
  | size + 1, a => (node a).process :: entries node size (node a).next

def pending (k : Kernel) : List ℕ := entries k.node k.size k.current

end ShellOS.Sched.Keyboard
