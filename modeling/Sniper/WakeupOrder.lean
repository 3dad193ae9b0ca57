import Sniper.WaiterWakeups

/-! # The order of the wake-ups and the requests of a shared cache -/

namespace Sniper.Coherence
open FallibleRuns NotedRuns Noted List

variable {n : ℕ} {δ : Type}

namespace WaiterEvent

def address : WaiterEvent n → ℕ
  | .enqueue a _ | .reply a | .wake a _ _ | .refill a _ _ _ => a

def joins (a : ℕ) : WaiterEvent n → Option (CacheDirectoryWaiter n)
  | .enqueue b w => if b=a then some w else none
  | .reply _ | .wake .. | .refill .. => none

def wakes (a : ℕ) : WaiterEvent n → Option (CacheDirectoryWaiter n)
  | .wake b w _ => if b=a then some w else none
  | .enqueue .. | .reply _ | .refill .. => none

def answers (a : ℕ) : WaiterEvent n → Bool
  | .reply b => b=a
  | .enqueue .. | .wake .. | .refill .. => false

end WaiterEvent

def CacheMsg.Fits : CacheMsg δ → CacheState → Prop
  | .exRep _,state | .shRep _,state => state = .invalid
  | .upgradeRep,state => state = .sharedUpgrading
  | .invReq,_ | .flushReq,_ | .wbReq,_ => False

namespace SharedCache

variable {s s' : SharedCache n δ} {a b : ℕ} {w : CacheDirectoryWaiter n} {notes : List (WaiterEvent n)}

section Notes

variable (a : ℕ) (notes : List (WaiterEvent n))

def enqueued : List (CacheDirectoryWaiter n) := notes.filterMap (WaiterEvent.joins a)

def woken : List (CacheDirectoryWaiter n) := notes.filterMap (WaiterEvent.wakes a)

def answered : ℕ := notes.countP (WaiterEvent.answers a)

end Notes

def unwoken (s : SharedCache n δ) (a : ℕ) : List (CacheDirectoryWaiter n) :=
  if s.network.block=some a then (s.waiters a).tail else s.waiters a

def outstanding (s : SharedCache n δ) (a : ℕ) : ℕ := if s.waiters a=[] ∨ s.network.block=some a then 0 else 1

/-- The notes agree with the sleepers of a block and with the requests on their way. -/
structure Tally (notes : List (WaiterEvent n)) (a : ℕ) (requested : ℕ)
    (unwoken : List (CacheDirectoryWaiter n)) (outstanding : ℕ) : Prop where
  order : enqueued a notes=woken a notes++unwoken
  requests : requested=answered a notes+outstanding

section Tally

variable {requested requested' outstanding outstanding' : ℕ}
  {unwoken unwoken' : List (CacheDirectoryWaiter n)}

theorem Tally.concat (h : Tally notes a requested unwoken outstanding) {e : WaiterEvent n}
    (horder : unwoken++(e.joins a).toList=(e.wakes a).toList++unwoken')
    (hrequests : requested'+outstanding=requested+(e.answers a).toNat+outstanding') :
    Tally (notes++[e]) a requested' unwoken' outstanding' := by
  have hone : ∀f : WaiterEvent n → Option (CacheDirectoryWaiter n),
      (notes++[e]).filterMap f=notes.filterMap f++(f e).toList := fun f => by
    rw [filterMap_append]
    cases hf : f e <;> simp [hf]
  refine ⟨?_,?_⟩
  · rw [enqueued,woken,hone,hone,append_assoc,← horder,← append_assoc]
    exact congrArg (· ++ _) h.order
  · have hcount : answered a (notes++[e])=answered a notes+(e.answers a).toNat := by
      rw [answered,countP_append,countP_singleton]
      cases e.answers a <;> rfl
    have := h.requests
    omega

theorem Tally.elsewhere (h : Tally notes b requested unwoken outstanding) {e : WaiterEvent n}
    (he : e.address≠b) : Tally (notes++[e]) b requested unwoken outstanding := by
  refine h.concat ?_ ?_
  all_goals
    cases e <;> simp_all [WaiterEvent.address,WaiterEvent.joins,WaiterEvent.wakes,WaiterEvent.answers]

end Tally

section

variable (notes)

def Tallied (s : SharedCache n δ) : Prop :=
  ∀a,Tally notes a (s.lines a).requested (s.unwoken a) (s.outstanding a)

/-- Nobody of the block has been woken without having had their turn. -/
def Resting (s : SharedCache n δ) (a : ℕ) : Prop :=
  Tally notes a (s.lines a).requested (s.waiters a) (if s.waiters a=[] then 0 else 1)

/-- No request for the block is on its way, and its waiters are to be woken. -/
structure Draining (s : SharedCache n δ) (a : ℕ) : Prop where
  here : Tally notes a (s.lines a).requested (s.waiters a) 0
  others : ∀b≠a,Resting notes s b

end

theorem unwoken_served (hserved : s.network.block=some a) : s.unwoken a=(s.waiters a).tail := if_pos hserved

theorem outstanding_served (hserved : s.network.block=some a) : s.outstanding a=0 := if_pos (Or.inr hserved)

theorem Resting.tally (h : Resting notes s a) (haway : s.network.block≠some a) :
    Tally notes a (s.lines a).requested (s.unwoken a) (s.outstanding a) := by
  rw [unwoken,outstanding,if_neg haway]
  simpa [Resting,haway] using h

theorem Tallied.resting (h : Tallied notes s) (haway : s.network.block≠some a) : Resting notes s a := by
  have ha := h a
  rw [unwoken,outstanding,if_neg haway] at ha
  simpa [Resting,haway] using ha

theorem Tally.frame (h : Tally notes a (s.lines a).requested (s.unwoken a) (s.outstanding a))
    (hlines : (s'.lines a).requested=(s.lines a).requested) (hwaiters : s'.waiters a=s.waiters a)
    (hnetwork : s'.network.block=some a ↔ s.network.block=some a) :
    Tally notes a (s'.lines a).requested (s'.unwoken a) (s'.outstanding a) := by
  rw [hlines,unwoken,outstanding,hwaiters]
  simp only [hnetwork]
  exact h

theorem Tallied.setLine (h : Tallied notes s) {l : Line δ} (hl : (s.lines a).Keeps l) :
    Tallied notes (s.setLine a l) := by
  intro b
  refine (h b).frame ?_ rfl Iff.rfl
  by_cases hba : b=a
  · rw [hba,setLine_lines_self,hl.requested]
  · rw [setLine_lines_of_ne s l hba]

theorem Tallied.pure (h : Tallied notes s) :
    (pure s : Attempt n (SharedCache n δ)).Leads fun more s' => Tallied (notes++more) s' := by
  refine leads_pure ?_
  rw [append_nil]
  exact h

theorem Draining.wakeFront (h : Draining notes s a) (hheld : (s.lines a).state.Held) :
    (s.wakeFront a).Leads fun more s' => Tallied (notes++more) s' := by
  cases hqueue : s.waiters a with
  | nil =>
    rw [wakeFront_nil hqueue]
    refine Tallied.pure fun b => Resting.tally ?_ (by simp [NetworkThread.block])
    change Resting notes s b
    by_cases hba : b=a
    · subst hba
      rw [Resting,if_pos hqueue]
      exact h.here
    · exact h.others b hba
  | cons w rest =>
    by_cases hup : w.exclusive=true ∧ (s.lines a).state = .shared
    · rw [wakeFront_upgrade hqueue hup.1 hup.2]
      refine Tallied.pure fun b => Resting.tally ?_ (by simp [NetworkThread.block])
      by_cases hba : b=a
      · subst hba
        have hne : s.waiters b≠[] := hqueue ▸ cons_ne_nil w rest
        refine ⟨h.here.order,?_⟩
        change ((s.setLine b _).lines b).requested=_+if s.waiters b=[] then 0 else 1
        rw [setLine_lines_self,Line.requested_send,if_neg hne]
        exact congrArg (· + 1) h.here.requests
      · have hb := h.others b hba
        rw [Resting,← setLine_lines_of_ne s _ hba] at hb
        exact hb
    · rw [wakeFront_wake hqueue hheld hup]
      refine .note_bind (leads_pure fun b => ?_)
      by_cases hba : b=a
      · subst hba
        rw [unwoken_served rfl,outstanding_served rfl]
        refine h.here.concat ?_ rfl
        simp [hqueue,WaiterEvent.joins,WaiterEvent.wakes]
      · have hb : Resting notes {s with network:=.passed a} b := h.others b hba
        exact (hb.tally fun hb => hba (Option.some.inj hb).symm).elsewhere (Ne.symm hba)

theorem Tallied.handleReply (h : Tallied notes s) (hn : s.network = .idle) {line : Except Abort (Line δ)}
    (hline : ∀l,line = .ok l → (s.lines a).Keeps l ∧ l.state.Held) :
    (s.handleReply a line).Leads fun more s' => Tallied (notes++more) s' := by
  have haway : ∀b,s.network.block≠some b := fun b => by
    rw [hn]
    simp [NetworkThread.block]
  rw [SharedCache.handleReply]
  split_ifs with hempty
  · exact leads_error _
  · refine .note_bind (.quiet_bind fun l hl => ?_)
    obtain ⟨hkeeps,hheld⟩:=hline l hl
    have hrests : ∀b,Resting notes (s.setLine a l) b := fun b =>
      (h.setLine hkeeps).resting (haway b)
    have hdraining : Draining (notes++[.reply a]) (s.setLine a l) a := by
      refine ⟨(hrests a).concat ?_ ?_,fun b hb => (hrests b).elsewhere (Ne.symm hb)⟩
      · simp [WaiterEvent.joins,WaiterEvent.wakes]
      · rw [show (s.setLine a l).waiters a=s.waiters a from rfl,if_neg hempty]
        simp [WaiterEvent.answers]
    have hwake := hdraining.wakeFront ((setLine_lines_self s a l).symm ▸ hheld)
    simp only [append_assoc] at hwake
    exact hwake

theorem Tallied.handleMsg (h : Tallied notes s) (hn : s.network = .idle) (m : CacheMsg δ) (stack : δ) :
    (s.handleMsgFromDramDirectory a m stack).Leads fun more s' => Tallied (notes++more) s' := by
  cases m with
  | exRep data => exact h.handleReply hn fun l => Line.insertCacheBlock_keeps (Or.inr (Or.inl rfl))
  | shRep data => exact h.handleReply hn fun l => Line.insertCacheBlock_keeps (Or.inl rfl)
  | upgradeRep => exact h.handleReply hn fun l => Line.processUpgradeRep_keeps
  | invReq =>
    exact .quiet_bind fun l hok => (h.setLine (Line.processInvReq_keeps hok)).pure
  | flushReq => exact (h.setLine (Line.processFlushReq_keeps _)).pure
  | wbReq => exact (h.setLine (Line.processWbReq_keeps _ stack)).pure

theorem unwoken_joined (hinv : s.Inv) (w : CacheDirectoryWaiter n) (l : Line δ) :
    (s.joined a w l).unwoken a=s.unwoken a++[w] := by
  by_cases hserved : s.network.block=some a
  · rw [unwoken_served hserved,unwoken_served (s:=s.joined a w l) hserved,joined_waiters_self,
      tail_append_of_ne_nil ((hinv.blocks a).served hserved).1]
  · rw [unwoken,unwoken,joined_waiters_self,if_neg hserved]
    exact if_neg hserved

theorem outstanding_joined (hinv : s.Inv) (w : CacheDirectoryWaiter n) (l : Line δ) :
    (s.joined a w l).outstanding a=s.outstanding a+if s.waiters a=[] then 1 else 0 := by
  have hnetwork : (s.joined a w l).network=s.network := rfl
  by_cases hserved : s.network.block=some a
  · rw [outstanding_served hserved,outstanding_served (s:=s.joined a w l) hserved,
      if_neg ((hinv.blocks a).served hserved).1]
  · rw [outstanding,outstanding,hnetwork,joined_waiters_self]
    by_cases hempty : s.waiters a=[] <;> simp [hserved,hempty]

section

variable (h : Tallied notes s)
include h

theorem Tallied.joined (hinv : s.Inv) {l : Line δ}
    (hrequested : l.requested=(s.lines a).requested+if s.waiters a=[] then 1 else 0) :
    Tallied (notes++[.enqueue a w]) (s.joined a w l) := by
  intro b
  by_cases hba : b=a
  · subst hba
    have hlines : (s.joined b w l).lines b=l := setLine_lines_self s b l
    refine (h b).concat ?_ ?_
    · rw [unwoken_joined hinv]
      simp [WaiterEvent.joins,WaiterEvent.wakes]
    · rw [outstanding_joined hinv,hlines,hrequested,WaiterEvent.answers,Bool.toNat_false]
      omega
  · refine Tally.elsewhere ((h b).frame ?_ (joined_waiters_of_ne s w l hba) Iff.rfl) (Ne.symm hba)
    exact congrArg Line.requested (setLine_lines_of_ne s l hba)

theorem Tallied.access (hinv : s.Inv) (c : Fin n) (exclusive isPrefetch : Bool) :
    (s.access c a exclusive isPrefetch).Leads fun more s' => Tallied (notes++more) s' := by
  rw [SharedCache.access]
  split_ifs with hblocked hpermits
  · exact h.pure
  · rw [Line.access_permitted hpermits,quiet_ok_bind]
    exact Tallied.pure (h.setLine ⟨rfl,rfl⟩)
  · refine .note_bind (.quiet_bind fun l hok => leads_pure (h.joined hinv ?_))
    rw [(Line.initiateDirectoryAccess_joins hok).2.1,(hinv.blocks a).flags]
    simp only [map_eq_nil_iff]

theorem Tallied.refill (hinv : s.Inv) (c : Fin n) :
    (s.refill c).Leads fun more s' => Tallied (notes++more) s' := by
  rcases hinv.refill_cases c with hstay | ⟨a,w,rest,hn,-,-,hturn⟩
  · rw [hstay]
    exact h.pure
  · rw [hturn]
    refine .note_bind (leads_pure fun b => ?_)
    have hb : Tally (notes++[.refill a w ⟨a,w.exclusive⟩ (s.lines a).state]) b
        (s.lines b).requested (s.unwoken b) (s.outstanding b) := by
      refine (h b).concat ?_ rfl
      simp [WaiterEvent.joins,WaiterEvent.wakes]
    refine hb.frame ?_ rfl ?_
    · by_cases hba : b=a
      · subst hba
        exact (congrArg Line.requested (setLine_lines_self s b _)).trans rfl
      · exact congrArg Line.requested (setLine_lines_of_ne s _ hba)
    · rw [hn]
      rfl

theorem Tallied.resume (hinv : s.Inv) : s.resume.Leads fun more s' => Tallied (notes++more) s' := by
  cases hn : s.network with
  | idle =>
    rw [SharedCache.resume,hn]
    exact h.pure
  | passed a =>
    rw [SharedCache.resume,hn]
    exact h.pure
  | returning a =>
    have hserved : s.network.block=some a := by
      rw [hn]
      rfl
    rw [hinv.resume_returning hn]
    refine Draining.wakeFront ⟨?_,fun b hb => ?_⟩ ?_
    · rw [dequeued_lines_self,dequeued_waiters_self,← unwoken_served hserved,← outstanding_served hserved]
      exact h a
    · rw [Resting,dequeued_lines_of_ne s hb,dequeued_waiters_of_ne s hb]
      refine h.resting ?_
      rw [hserved]
      exact fun hab => hb (Option.some.inj hab).symm
    · rw [dequeued_lines_self]
      exact ((hinv.blocks a).served hserved).2

theorem Tallied.stepNoted (hinv : s.Inv) (i : WaiterStep n δ) :
    (s.stepNoted i).Leads fun more s' => Tallied (notes++more) s' := by
  cases i with
  | access c a exclusive isPrefetch => exact h.access hinv c exclusive isPrefetch
  | store a data =>
    refine Tallied.pure ?_
    split_ifs with hlock
    · exact h
    · exact h.setLine (Line.store_keeps _ data)
  | evict a =>
    refine Tallied.pure ?_
    split_ifs with hn
    · exact h.setLine (Line.evict_keeps _)
    · exact h
  | deliver a m stack =>
    rw [SharedCache.stepNoted]
    split_ifs with hn
    · exact h.handleMsg hn m stack
    · exact h.pure
  | refill c => exact h.refill hinv c
  | resume => exact h.resume hinv

end

/-- The waiter has been woken and has the stack lock. -/
structure Woken (s : SharedCache n δ) (a : ℕ) (w : CacheDirectoryWaiter n) : Prop where
  network : s.network = .passed a
  first : (s.waiters a).head?=some w

/-- The waiter is first and its upgrade has been asked for. -/
structure Upgrading (s : SharedCache n δ) (a : ℕ) (w : CacheDirectoryWaiter n) : Prop where
  network : s.network = .idle
  first : (s.waiters a).head?=some w
  state : (s.lines a).state = .sharedUpgrading
  exclusive : w.exclusive=true

theorem wakeFront_first (hheld : (s.lines a).state.Held) {rest : List (CacheDirectoryWaiter n)}
    (hqueue : s.waiters a=w::rest) : ∃s',(s.wakeFront a).result = .ok s' ∧
      (s'.Woken a w ∨ (s.lines a).state = .shared ∧ s'.Upgrading a w) := by
  have hfirst : (s.waiters a).head?=some w := by
    rw [hqueue]
    rfl
  by_cases hup : w.exclusive=true ∧ (s.lines a).state = .shared
  · rw [wakeFront_upgrade hqueue hup.1 hup.2]
    refine ⟨_,rfl,Or.inr ⟨hup.2,rfl,hfirst,?_,hup.1⟩⟩
    exact congrArg Line.state (setLine_lines_self s a _)
  · rw [wakeFront_wake hqueue hheld hup]
    exact ⟨_,rfl,Or.inl ⟨rfl,hfirst⟩⟩

theorem Inv.refill_ok (h : s.Inv) (hn : s.network = .passed a) :
    ∃w s',(s.waiters a).head?=some w ∧ s.step (.refill w.core) = .ok s' ∧ s'.network = .returning a := by
  obtain ⟨hne,-⟩:=(h.blocks a).served (congrArg NetworkThread.block hn)
  obtain ⟨w,rest,hqueue⟩:=exists_cons_of_ne_nil hne
  refine ⟨w,s.returned a w,by rw [hqueue]; rfl,?_,rfl⟩
  rw [step,SharedCache.stepNoted,(h.refill_passed hn hqueue).1]
  rfl

theorem Inv.resume_ok (h : s.Inv) (hn : s.network = .returning a) :
    ∃s',s.step .resume = .ok s' ∧ (s.unwoken a=[] → s'.network = .idle) ∧
      ∀w∈(s.unwoken a).head?,s'.Woken a w ∨ s'.Upgrading a w := by
  have hserved : s.network.block=some a := by
    rw [hn]
    rfl
  have hheld := ((h.blocks a).served hserved).2
  have hwaiters : (s.dequeued a).waiters a=s.unwoken a := by
    rw [dequeued_waiters_self,unwoken_served hserved]
  rw [step,SharedCache.stepNoted,h.resume_returning hn]
  cases hqueue : s.unwoken a with
  | nil =>
    rw [wakeFront_nil (hwaiters.trans hqueue)]
    exact ⟨_,rfl,fun _ => rfl,fun w hw => by cases hw⟩
  | cons w rest =>
    obtain ⟨s',hok,hfirst⟩:=wakeFront_first (s:=s.dequeued a)
      ((dequeued_lines_self s a).symm ▸ hheld) (hwaiters.trans hqueue)
    refine ⟨s',hok,fun hnil => absurd hnil (cons_ne_nil w rest),fun v hv => ?_⟩
    cases hv
    exact hfirst.imp_right And.right

theorem handleReply_ok {line : Except Abort (Line δ)} {l : Line δ} (hline : line = .ok l)
    (hheld : l.state.Held) (hfirst : (s.waiters a).head?=some w) :
    ∃s',(s.handleReply a line).result = .ok s' ∧ (s'.Woken a w ∨ l.state = .shared ∧ s'.Upgrading a w) := by
  obtain ⟨v,rest,hqueue⟩ : ∃v rest,s.waiters a=v::rest := by
    cases hqueue : s.waiters a with
    | nil =>
      rw [hqueue] at hfirst
      cases hfirst
    | cons v rest => exact ⟨v,rest,rfl⟩
  rw [hqueue] at hfirst
  obtain rfl:=Option.some.inj hfirst
  have hlines := setLine_lines_self s a l
  obtain ⟨s',hok,hnext⟩:=wakeFront_first (s:=s.setLine a l) (hlines.symm ▸ hheld) hqueue
  rw [hlines] at hnext
  refine ⟨s',?_,hnext⟩
  rw [SharedCache.handleReply,if_neg (hqueue ▸ cons_ne_nil v rest),hline]
  exact hok

theorem deliver_ok (hn : s.network = .idle) (hfirst : (s.waiters a).head?=some w) {m : CacheMsg δ}
    (hfits : m.Fits (s.lines a).state) (stack : δ) : ∃s',s.step (.deliver a m stack) = .ok s' ∧
      (s'.Woken a w ∨ (∃data,m = .shRep data) ∧ s'.Upgrading a w) := by
  rw [step,SharedCache.stepNoted,if_pos hn]
  cases m with
  | exRep data =>
    have hline : (s.lines a).processExRepFromDramDirectory data=_ := if_pos hfits
    obtain ⟨s',hok,hnext⟩:=handleReply_ok hline (Or.inr (Or.inl rfl)) hfirst
    exact ⟨s',hok,hnext.imp_right fun hup => absurd hup.1 (by simp)⟩
  | shRep data =>
    have hline : (s.lines a).processShRepFromDramDirectory data=_ := if_pos hfits
    obtain ⟨s',hok,hnext⟩:=handleReply_ok hline (Or.inl rfl) hfirst
    exact ⟨s',hok,hnext.imp_right fun hup => ⟨⟨data,rfl⟩,hup.2⟩⟩
  | upgradeRep =>
    have hline : (s.lines a).processUpgradeRepFromDramDirectory=_ := if_pos hfits
    obtain ⟨s',hok,hnext⟩:=handleReply_ok hline (Or.inr (Or.inr rfl)) hfirst
    exact ⟨s',hok,hnext.imp_right fun hup => absurd hup.1 (by simp)⟩
  | invReq | flushReq | wbReq => exact hfits.elim

/-- The steps of the threads that are woken, each of which passes the stack lock back. -/
def wakeSteps (woken : List (CacheDirectoryWaiter n)) : List (WaiterStep n δ) :=
  woken.flatMap fun w => [.refill w.core,.resume]

/-- When nobody comes in between, the loop over the waiters leaves the line as `wake` does. -/
theorem wakeFront_drains (ws : List (CacheDirectoryWaiter n)) (hqueue : s.waiters a=ws)
    (h : ({s with network:=.idle} : SharedCache n δ).Inv) (hheld : (s.lines a).state.Held) :
    ∃t woken s',(s.wakeFront a).result = .ok t ∧ woken <+: ws ∧ run step t (wakeSteps woken) = .ok s' ∧
      s'.network = .idle ∧ (s.lines a).wake (ws.map (·.exclusive)) = .ok (s'.lines a) := by
  have hflags : (s.lines a).waiters=ws.map (·.exclusive) := hqueue ▸ (h.blocks a).flags
  induction ws generalizing s with
  | nil =>
    rw [wakeFront_nil hqueue]
    refine ⟨_,[],_,rfl, nil_prefix,rfl,rfl,?_⟩
    rw [map_nil,Line.wake,← map_nil,← hflags]
  | cons w ws ih =>
    by_cases hup : w.exclusive=true ∧ (s.lines a).state = .shared
    · rw [wakeFront_upgrade hqueue hup.1 hup.2]
      refine ⟨_,[],_,rfl, nil_prefix,rfl,rfl,?_⟩
      rw [map_cons,hup.1] at hflags ⊢
      rw [Line.wake,if_pos hup.2,← hflags,Line.processUpgradeReq_shared hup.2]
      exact congrArg Except.ok (setLine_lines_self s a _).symm
    · -- the thread of the waiter reads the line, and the network thread goes on with the others
      have hmeets := (h.wakeFront hheld : (s.wakeFront a).Meets _ _ True).result
      rw [wakeFront_wake hqueue hheld hup] at hmeets ⊢
      have hinv : ({s with network:=.passed a} : SharedCache n δ).Inv := hmeets.of_ok rfl
      obtain ⟨p,hp⟩ : ∃p,p=({s with network:=.passed a} : SharedCache n δ):=⟨_,rfl⟩
      have hpn : p.network = .passed a := hp ▸ rfl
      have hpq : p.waiters a=w::ws := hp ▸ hqueue
      have hpl : p.lines a=s.lines a := hp ▸ rfl
      rw [← hp] at hinv
      have hread := hinv.returned hpn hpq
      have hline : ((p.returned a w).dequeued a).lines a={ s.lines a with
          state := if w.exclusive then .modified else (s.lines a).state
          waiters := (s.lines a).waiters.tail } := by
        rw [dequeued_lines_self,returned,setLine_lines_self,hpl]
      have hqueue' : ((p.returned a w).dequeued a).waiters a=ws := by
        rw [dequeued_waiters_self]
        exact congrArg List.tail hpq
      obtain ⟨t,woken,s',hwake,hfirst,hrun,hidle,hlines⟩ := ih hqueue' (hread.dequeued rfl)
        (by rw [hline]; exact held_accessed hheld w.exclusive)
        (by rw [hline]; exact (congrArg List.tail hflags).trans rfl)
      refine ⟨p,w :: woken,s',by rw [hp]; rfl,cons_prefix_cons.mpr ⟨rfl,hfirst⟩,?_,hidle,?_⟩
      · have hrefill : p.step (.refill w.core) = .ok (p.returned a w) := by
          rw [step,SharedCache.stepNoted,(hinv.refill_passed hpn hpq).1]
          rfl
        have hresume : (p.returned a w).step .resume = .ok t := by
          rw [step,SharedCache.stepNoted,hread.resume_returning rfl]
          exact hwake
        rw [wakeSteps,flatMap_cons,cons_append,run_cons,hrefill,ok_bind,cons_append,run_cons,hresume,
          ok_bind]
        exact hrun
      · rw [map_cons,Line.wake_permitted hup,← hlines,hline]
        exact (Line.wake_waiters _ _ _).symm

/-- Every reply leaves the line readable, and then the waiters are woken, when nobody comes in between. -/
theorem Inv.handleReply_drains (h : s.Inv) (hn : s.network = .idle) {line : Except Abort (Line δ)}
    (hline : ∀l,line = .ok l → (s.lines a).Keeps l ∧ l.state.Held) {l : Line δ}
    (hwakes : (do (← line).wakeWaiters) = .ok l) :
    ∃t woken s',(s.handleReply a line).result = .ok t ∧ woken <+: s.waiters a ∧
      run step t (wakeSteps woken) = .ok s' ∧ s'.network = .idle ∧ s'.lines a = l := by
  obtain ⟨l',hl',hwakes⟩:=bind_ok hwakes
  obtain ⟨hkeeps,hheld⟩:=hline l' hl'
  have hflags := (h.blocks a).flags
  rw [Line.wakeWaiters,hkeeps.waiters,hflags] at hwakes
  have hne : s.waiters a≠[] := by
    intro hnil
    rw [hnil] at hwakes
    cases hwakes
  rw [if_neg (by simpa using hne)] at hwakes
  have hself := setLine_lines_self s a l'
  have hinv : (s.setLine a l').Inv := h.setLine hkeeps.waiters fun hb => by
    rw [hn] at hb
    cases hb
  obtain ⟨t,woken,s',hwake,hfirst,hrun,hidle,hlines⟩ :=
    wakeFront_drains (s:=s.setLine a l') (a:=a) _ rfl (hinv.idle hn) (hself.symm ▸ hheld)
  refine ⟨t,woken,s',?_,hfirst,hrun,hidle,?_⟩
  · rw [SharedCache.handleReply,if_neg hne,hl']
    exact hwake
  · rw [hself] at hlines
    exact Except.ok.inj (hlines.symm.trans hwakes)

/-- Whatever has happened before, a message that finds the network thread idle is handled to its end as
`Line.handleMsgFromDramDirectory` says when only the threads it wakes go on, the first waiters in order. -/
theorem run_reply_drains (memory : ℕ → δ) (steps : List (WaiterStep n δ))
    (hs : run step (new memory) steps = .ok s)
      (hn : s.network = .idle) {m : CacheMsg δ} {stack : δ} {l : Line δ}
    (hok : (s.lines a).handleMsgFromDramDirectory m stack = .ok l) :
    ∃woken s',woken <+: s.waiters a ∧ run step s (.deliver a m stack :: wakeSteps woken) = .ok s' ∧
      s'.network = .idle ∧ s'.lines a = l := by
  have hinv : s.Inv := run_invariant (I := Inv) (G := fun _ _ => True)
    (fun _ i _ h _ he => (h.stepNoted i).result.of_ok he) (inv_new memory)
    (along_of_forall (fun _ _ => trivial) _ steps) hs
  suffices hmsg : ∃t woken s',(s.handleMsgFromDramDirectory a m stack).result = .ok t ∧
      woken <+: s.waiters a ∧ run step t (wakeSteps woken) = .ok s' ∧ s'.network = .idle ∧ s'.lines a = l by
    obtain ⟨t,woken,s',ht,hfirst,hrun,hend⟩ := hmsg
    refine ⟨woken,s',hfirst,?_,hend⟩
    rw [run_cons,step,SharedCache.stepNoted,if_pos hn,ht,ok_bind]
    exact hrun
  cases m with
  | exRep data =>
    exact hinv.handleReply_drains hn (fun l => Line.insertCacheBlock_keeps (Or.inr (Or.inl rfl))) hok
  | shRep data => exact hinv.handleReply_drains hn (fun l => Line.insertCacheBlock_keeps (Or.inl rfl)) hok
  | upgradeRep => exact hinv.handleReply_drains hn (fun l => Line.processUpgradeRep_keeps) hok
  | invReq | flushReq | wbReq =>
    refine ⟨s.setLine a l,[],s.setLine a l,?_, nil_prefix,rfl,hn,setLine_lines_self s a l⟩
    rw [SharedCache.handleMsgFromDramDirectory,hok]
    rfl

/-- Core 0 waits to read block 8 and core 1 to write it. An exclusive reply lets both go on. -/
theorem run_reply_drains_two : ∃ (s s' : SharedCache 2 ℕ) (woken : List (CacheDirectoryWaiter 2)),
    run step (new fun _ => 0) [.access 0 8 false false,.access 1 8 true false] = .ok s ∧
      woken <+: [⟨false,false,0⟩,⟨true,false,1⟩] ∧
      run step s (.deliver 8 (.exRep 5) 0 :: wakeSteps woken) = .ok s' ∧ s'.network = .idle ∧
      (s'.lines 8).state = .modified := by
  obtain ⟨woken,s',hfirst,hrun,hidle,hline⟩ := run_reply_drains (n := 2) (a := 8) (m := .exRep 5)
    (fun _ => 0) [.access 0 8 false false,.access 1 8 true false] rfl rfl rfl
  exact ⟨_,s',woken,rfl,hfirst,hrun,hidle,by rw [hline]⟩

/-- Those who joined the waiters of a block are woken in this order, each of them once, with at
most one request on its way. -/
structure Waited (notes : List (WaiterEvent n)) (s : SharedCache n δ) (a : ℕ) : Prop where
  order : enqueued a notes=woken a notes++s.unwoken a
  single : answered a notes≤(s.lines a).requested ∧ (s.lines a).requested≤answered a notes+1
  /-- nobody sleeps without a request on its way, unless a reply is being handled -/
  waiting : s.unwoken a≠[] →
    (s.lines a).requested=answered a notes+1 ∨ s.network.block=some a

/-- The cores that sleep are the ones with a waiter, and the next steps of the network thread and
of the thread that it has woken do not fail: they wake the waiter that is next, or ask for its
upgrade after a `SH_REP`. -/
structure Lively (s : SharedCache n δ) : Prop where
  asleep : ∀c x,s.threads c=some x ↔
    ∃w∈s.pending x.address,w.core=c ∧ w.exclusive=x.exclusive
  passed : ∀a,s.network = .passed a → ∃w s',(s.waiters a).head?=some w ∧
    s.step (.refill w.core) = .ok s' ∧ s'.network = .returning a
  returning : ∀a,s.network = .returning a → ∃s',s.step .resume = .ok s' ∧
    (s.unwoken a=[] → s'.network = .idle) ∧
    ∀w∈(s.unwoken a).head?,s'.Woken a w ∨ s'.Upgrading a w
  replied : ∀a w,s.network = .idle → (s.waiters a).head?=some w → ∀m stack,
    CacheMsg.Fits m (s.lines a).state → ∃s',s.step (.deliver a m stack) = .ok s' ∧
      (s'.Woken a w ∨ (∃data,m = .shRep data) ∧ s'.Upgrading a w)

theorem Tallied.waited (h : Tallied notes s) (a : ℕ) : Waited notes s a := by
  obtain ⟨horder,hrequests⟩:=h a
  have hone : s.outstanding a≤1 := by
    rw [outstanding]
    split_ifs <;> omega
  refine ⟨horder,by omega,fun hne => ?_⟩
  by_cases hserved : s.network.block=some a
  · exact Or.inr hserved
  · left
    rw [unwoken,if_neg hserved] at hne
    rw [hrequests,outstanding,if_neg (not_or.mpr ⟨hne,hserved⟩)]

theorem Inv.lively (h : s.Inv) : s.Lively where
  asleep := h.asleep
  passed _ hn := h.refill_ok hn
  returning _ hn := h.resume_ok hn
  replied _ _ hn hfirst _ stack hfits := deliver_ok hn hfirst hfits stack

/-- Whatever the directory sends and whenever the cores come, the waiters of a shared cache are
woken in order, and each of them finds the line. -/
theorem run_waiters (memory : ℕ → δ) (steps : List (WaiterStep n δ)) :
    (∀e∈(runNoted stepNoted (new memory : SharedCache n δ) steps).notes,e.Permitted) ∧
    ∀s,run step (new memory : SharedCache n δ) steps = .ok s →
      (∀a,Waited (runNoted stepNoted (new memory : SharedCache n δ) steps).notes s a) ∧ s.Lively := by
  have hresult : ∀ (s : SharedCache n δ) (i : WaiterStep n δ),(s.stepNoted i).result=s.step i := fun _ _ => rfl
  have halong : Along step (fun _ _ => True) (new memory : SharedCache n δ) steps :=
    along_of_forall (fun _ _ => trivial) _ steps
  have hmeets : (runNoted stepNoted (new memory : SharedCache n δ) steps).Meets
      WaiterEvent.Permitted Inv True :=
    runNoted_meets hresult (fun _ i hs _ => hs.stepNoted i) (inv_new memory) halong
  have hleads : (runNoted stepNoted (new memory : SharedCache n δ) steps).Leads fun notes s =>
      ∀before,Tallied before (new memory : SharedCache n δ) → Tallied (before++notes) s := by
    refine runNoted_leads (I:=Inv) (G:=fun _ _ => True)
      (T:=fun s notes s' => ∀before,Tallied before s → Tallied (before++notes) s')
      hresult ?_ ?_ ?_ ?_ (inv_new memory) halong
    · intro s before hs
      rw [append_nil]
      exact hs
    · intro s notes t notes' u hst htu before hs
      rw [← append_assoc]
      exact htu _ (hst before hs)
    · intro s i s' hs _ hok
      exact (hs.stepNoted i).result.of_ok hok
    · intro s i hs _ s' hok before htallied
      exact htallied.stepNoted hs i s' hok
  refine ⟨hmeets.notes,fun s hs => ?_⟩
  rw [← runNoted_result hresult] at hs
  exact ⟨(hleads s hs [] fun _ => ⟨rfl,rfl⟩).waited,(hmeets.result.of_ok hs).lively⟩

end SharedCache

end Sniper.Coherence
