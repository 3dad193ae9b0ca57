import Mathlib

/-!
# Simulated time

`SubsecondTime` counts femtoseconds in 64 bits. Sums and products wrap around, which happens
after a little more than five hours.
-/

namespace Sniper

abbrev SubsecondTime := BitVec 64

namespace SubsecondTime

def zero : SubsecondTime := 0

def ps (n : BitVec 64) : SubsecondTime := n*1000

def ns (n : BitVec 64) : SubsecondTime := n*1000000

def sec (n : BitVec 64) : SubsecondTime := n*1000000000000000

def maxTime : SubsecondTime := BitVec.allOnes 64

def getPS (t : SubsecondTime) : BitVec 64 := t / 1000

end SubsecondTime

end Sniper
