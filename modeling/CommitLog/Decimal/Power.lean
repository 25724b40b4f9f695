/-!
Powers of the two bases in which numbers are kept and written.
-/

namespace CommitLog

def powerOfTwo (n : Nat) : Nat := Nat.pow 2 n

def powerOfTen (n : Nat) : Nat := Nat.pow 10 n

end CommitLog
