/-! Cancellation. A signal has a level that only rises; every token shows the level of the
signal it was taken from. -/
namespace ApproxQuery

inductive CancelLevel where
  | none
  /-- Progressive nodes finish with the increment at hand. -/
  | stopProgressive
  /-- Nothing more is started. -/
  | abort
deriving DecidableEq, Repr, Inhabited

namespace CancelLevel

def rank : CancelLevel → Nat
  | none => 0
  | stopProgressive => 1
  | abort => 2

/-- The higher of two levels. -/
def raise (current level : CancelLevel) : CancelLevel :=
  if current.rank < level.rank then level else current

def isAborted (level : CancelLevel) : Bool := level = abort

def stopsProgressive (level : CancelLevel) : Bool := stopProgressive.rank ≤ level.rank

def name : CancelLevel → String
  | none => "none"
  | stopProgressive => "stop_progressive"
  | abort => "abort"

/-- A level never falls. -/
theorem rank_le_rank_raise (current level : CancelLevel) :
    current.rank ≤ (current.raise level).rank := by
  unfold raise
  split <;> omega

end CancelLevel

/-- A signal in use, with the tokens taken from it and those of the signals used before. -/
structure Cancellation where
  level : CancelLevel
  /-- Tokens of the signal in use. All of them show its level. -/
  tokens : Nat
  /-- What the tokens of earlier signals show; nobody can raise those signals any more. -/
  settled : List CancelLevel
deriving DecidableEq, Repr

namespace Cancellation

def start : Cancellation := ⟨.none, 0, []⟩

def raise (c : Cancellation) (level : CancelLevel) : Cancellation :=
  { c with level := c.level.raise level }

def takeToken (c : Cancellation) : Cancellation := { c with tokens := c.tokens + 1 }

/-- What the tokens show, the earliest first. -/
def tokenLevels (c : Cancellation) : List CancelLevel :=
  c.settled ++ List.replicate c.tokens c.level

/-- Puts a fresh signal in use. -/
def renew (c : Cancellation) : Cancellation := ⟨.none, 0, c.tokenLevels⟩

end Cancellation

end ApproxQuery
