import Sniper.RadixPageTable
import Sniper.SubsecondTimes

/-!
# The latency of a page walk

In each table the accesses at one depth begin when those at the smaller depths are done. From the
access on that finds the translation, only those that begin before its end are still sent.
-/

namespace Sniper.PageWalks
open RadixPageTable

structure WalkAccess extends PTWAccess where
  tableLevel : ℕ

/-- A walk that begins at `now`; `latency i` is what the caches take for access `i`. -/
structure PageWalk where
  now : SubsecondTime
  accesses : List WalkAccess
  latency : ℕ → SubsecondTime

/-- The variables of `calculatePTWCycles`. -/
structure WalkState where
  latencies : ℕ → ℕ → SubsecondTime
  fetchDelay : ℕ → SubsecondTime
  /-- `correct_table` and `correct_level`, which are -1 at first -/
  correct : Option (ℕ × ℕ)
  correctTime : SubsecondTime
  /-- the accesses that were sent to the caches, with their times; no function reads it -/
  sent : List (ℕ × SubsecondTime)

def WalkState.new : WalkState := ⟨fun _ _ => 0,fun _ => 0,none,SubsecondTime.maxTime,[]⟩

def WalkState.setLatency (st : WalkState) (tab level : ℕ) (latency : SubsecondTime) : WalkState :=
  {st with latencies:=fun t l => if t=tab ∧ l=level then latency else st.latencies t l}

namespace PageWalk

def levels (w : PageWalk) : ℕ := w.accesses.foldl (fun levels a => if levels<a.depth then a.depth else levels) 0

def tables (w : PageWalk) : ℕ :=
  w.accesses.foldl (fun tables a => if tables<a.tableLevel then a.tableLevel else tables) 0

section

variable (w : PageWalk)

/-- The body of the innermost `if`. -/
def access (st : WalkState) (req : ℕ) (a : WalkAccess) : WalkState :=
  let start := w.now+st.fetchDelay a.tableLevel
  let latency := if start<st.correctTime then w.latency req else 0
  let st := {st with sent:=if start<st.correctTime then st.sent++[(req,start)] else st.sent}
  if a.isPte then
    { st.setLatency a.tableLevel a.depth latency with
      correct := some (a.tableLevel,a.depth)
      correctTime := start+latency }
  else if st.latencies a.tableLevel a.depth<latency ∧
      st.correct.map Prod.snd≠some a.depth then
    st.setLatency a.tableLevel a.depth latency
  else st

def visit (level tab : ℕ) (st : WalkState) (req : ℕ) : WalkState :=
  match w.accesses[req]? with
  | some a => if a.depth=level ∧ a.tableLevel=tab then w.access st req a else st
  | none => st

def finishTable (st : WalkState) (level tab : ℕ) : WalkState :=
  {st with fetchDelay:=Function.update st.fetchDelay tab (st.fetchDelay tab+st.latencies tab level)}

def visitTable (level : ℕ) (st : WalkState) (tab : ℕ) : WalkState :=
  finishTable ((List.range w.accesses.length).foldl (w.visit level tab) st) level tab

def visitLevel (st : WalkState) (level : ℕ) : WalkState :=
  (List.range (w.tables+1)).foldl (w.visitTable level) st

def walk : WalkState := (List.range (w.levels+1)).foldl w.visitLevel .new

def addLevels (tab : ℕ) (acc : SubsecondTime) : SubsecondTime :=
  (List.range (w.levels+1)).foldl (fun acc level => acc+w.walk.latencies tab level) acc

/-- Without a translation, `walk_latency` and `max_latency` are computed, and the first of them is
returned. -/
def calculatePTWCycles : SubsecondTime :=
  match w.walk.correct with
  | some (table,_) => w.addLevels table 0
  | none =>
    ((List.range (w.tables+1)).foldl (fun (acc : SubsecondTime × SubsecondTime) tab =>
      let walkLatency := w.addLevels tab acc.1
      (walkLatency,if acc.2<walkLatency then walkLatency else acc.2)) (0,0)).1

def inGroup (tab level i : ℕ) : Bool := (w.accesses[i]?).any fun a => a.tableLevel == tab && a.depth == level

end

/-- The greatest latency of the first `r` accesses in a table at a depth. -/
def slowestBelow (w : PageWalk) (tab level : ℕ) : ℕ → SubsecondTime
  | 0 => 0
  | r+1 =>
    if w.inGroup tab level r ∧ w.slowestBelow tab level r<w.latency r then w.latency r
    else w.slowestBelow tab level r

def slowest (w : PageWalk) (tab level : ℕ) : SubsecondTime := w.slowestBelow tab level w.accesses.length

def delay (w : PageWalk) (tab : ℕ) : ℕ → SubsecondTime
  | 0 => 0
  | level+1 => w.delay tab level+w.slowest tab level

def start (w : PageWalk) (tab level : ℕ) : SubsecondTime := w.now+w.delay tab level

/-- Access `i` comes before the point of the loops that the three counters give. -/
def Before (a : WalkAccess) (i level tab req : ℕ) : Prop :=
  a.depth<level ∨ a.depth=level ∧ (a.tableLevel<tab ∨ a.tableLevel=tab ∧ i < req)

instance (a : WalkAccess) (i level tab req : ℕ) : Decidable (Before a i level tab req) :=
  inferInstanceAs (Decidable (_ ∨ _))

/-- Access `i` comes before access `j` in the loops. -/
def Precedes (a : WalkAccess) (i : ℕ) (b : WalkAccess) (j : ℕ) : Prop := Before a i b.depth b.tableLevel j

end PageWalk

end Sniper.PageWalks
