/-!
A limit on how often errors are logged: one per interval. Those in between are counted, and the
next one that is logged reports their number.
-/

namespace CommitLog.Poller

structure Throttle where
  /-- Milliseconds from one logged error to the next. -/
  interval : Nat
  lastLogged : Option Nat := none
  /-- Errors since the last one that was logged. The word of 64 bits that counts them is not
  modelled: it overflows only after 2^64 failed polls within one interval. -/
  suppressed : Nat := 0
  deriving DecidableEq, Repr

namespace Throttle

/-- The first error is due, and any that is an interval away from the last. -/
def isDue (throttle : Throttle) (now : Nat) : Bool :=
  match throttle.lastLogged with
  | none => true
  | some last => throttle.interval ≤ now - last

/-- For an error that is logged, how many were not since the last. -/
def letThrough (throttle : Throttle) (now : Nat) : Option Nat × Throttle :=
  if throttle.isDue now then
    (some throttle.suppressed, { throttle with lastLogged := some now, suppressed := 0 })
  else (none, { throttle with suppressed := throttle.suppressed + 1 })

end Throttle
end CommitLog.Poller
