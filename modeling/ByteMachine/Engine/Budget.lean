import ByteMachine.Fault

/-!
# Step budgets

A budget counts executed instructions and refuses more of them than its limit
allows.  The count stops at the largest number of 64 bits.
-/

namespace ByteMachine

/-- The number of executed instructions and the number allowed, where `none`
allows any number. -/
structure Budget where
  used : Nat
  limit : Option Nat
deriving DecidableEq, Repr

namespace Budget

/-- The largest count. -/
def maxCount : Nat := UInt64.size - 1

/-- A budget of which nothing is used. -/
def start (limit : Option Nat) : Budget :=
  { used := 0, limit }

/-- Count one more instruction. -/
def count (budget : Budget) : Budget :=
  { budget with used := min (budget.used + 1) maxCount }

/-- Count one more instruction, if the limit allows it. -/
def charge (budget : Budget) : Except Fault Budget :=
  match budget.limit with
  | none => .ok budget.count
  | some limit =>
    if budget.used < limit then .ok budget.count
    else .error (.stepLimitExceeded limit)

/-- Forget what is used. -/
def reset (budget : Budget) : Budget :=
  start budget.limit

end Budget

end ByteMachine
