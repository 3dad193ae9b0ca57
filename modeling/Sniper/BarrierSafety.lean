import Sniper.BarrierServer

/-! # Barrier times and the threads in the barrier -/

namespace Sniper.Barrier
open NotedRuns NotedRuns.Noted Function List

/-- The time that was last reported for each core, and who was disturbed since it has arrived. -/
structure Ledger (n : ℕ) (θ : Type) where
  reported : Fin n → SubsecondTime
  disturbed : θ → Bool

section

variable {n : ℕ} {θ : Type}

def Ledger.note [DecidableEq θ] (l : Ledger n θ) : BarrierEvent n θ → Ledger n θ
  | .arrives c w => ⟨update l.reported c w.time,update l.disturbed w.thread false⟩
  | .disturbs t => {l with disturbed:=update l.disturbed t true}
  | .releases .. | .leaves .. => l

/-- A release finds that the running masters have reported the barrier time or a later one, and a
thread that was not disturbed leaves after its time. -/
def Ledger.Good (l : Ledger n θ) : BarrierEvent n θ → Prop
  | .releases barrierTime running => ∀c,running c=true → barrierTime ≤ l.reported c
  | .leaves w barrierTime => l.disturbed w.thread=false → w.time<barrierTime
  | .arrives .. | .disturbs .. => True

end

namespace BarrierServer

variable {n : ℕ} {θ : Type} {l : Ledger n θ} {s s' : BarrierServer n θ} {c : Fin n}
  {w : Waiting θ}

/-- The caller of a release, if it has arrived for this core. -/
def callerAt (caller : Option (Fin n × Waiting θ)) (c : Fin n) : List (Waiting θ) :=
  match caller with
  | none => []
  | some (m,w) => if m=c then [w] else []

section

variable (s)

/-- The threads in the barrier for a core: those that wait, and the caller of a release. -/
def inside (caller : Option (Fin n × Waiting θ)) (c : Fin n) : List (Waiting θ) :=
  s.waiting c++callerAt caller c

variable (l)

/-- The thread may leave: the barrier has passed its time, unless it was disturbed. -/
def MayLeave (w : Waiting θ) : Prop := w.time<s.nextBarrierTime ∨ l.disturbed w.thread=true

/-- The thread has reached the barrier for its core. -/
structure Reached (c : Fin n) (w : Waiting θ) : Prop where
  master : s.groups.group c=none
  thread : s.coreThread c=some w.thread
  reported : l.reported c=w.time
  bounded : w.time.toNat+s.barrierInterval.toNat<2^64
  clock : s.localClock c=w.time ∨ s.localClock c=0 ∧ l.disturbed w.thread=true

end

theorem MayLeave.good (h : s.MayLeave l w) : l.Good (.leaves w s.nextBarrierTime) :=
  fun hfalse => h.resolve_right fun htrue => Bool.false_ne_true (hfalse.symm.trans htrue)

theorem Reached.of_eq (h : s.Reached l c w) (hgroups : s'.groups=s.groups)
    (hthread : s'.coreThread c=s.coreThread c) (hinterval : s'.barrierInterval=s.barrierInterval)
    (hclock : s'.localClock c=s.localClock c) : s'.Reached l c w :=
  ⟨hgroups ▸ h.master,hthread.trans h.thread,h.reported,hinterval ▸ h.bounded,hclock ▸ h.clock⟩

/-- The threads in the barrier, between the parts of a call by `caller`. -/
structure Base (caller : Option (Fin n × Waiting θ)) (l : Ledger n θ) (s : BarrierServer n θ) : Prop where
  positive : 0<s.barrierInterval
  passed : ∀c,s.acquired c=false → s.localClock c<s.nextBarrierTime
  acquired : ∀c,s.acquired c=true → ∃w,s.inside caller c=[w] ∧ s.Reached l c w
  toRelease : ∀c∈s.toRelease,s.acquired c=false ∧ s.groups.group c=none ∧
    ∃w,s.inside caller c=[w] ∧ s.MayLeave l w
  gone : ∀c,s.acquired c=false → c∉s.toRelease → s.inside caller c=[]
  nodup : s.toRelease.Nodup
  caller : ∀m w,caller=some (m,w) → s.acquired m=true ∧
    ∀c,∀w'∈s.waiting c,w'.thread≠w.thread

variable {caller : Option (Fin n × Waiting θ)}

theorem Base.callerAt_nil (hs : Base caller l s) (hc : s.acquired c=false) : callerAt caller c=[] := by
  cases caller with
  | none => rfl
  | some x =>
    obtain ⟨m,w⟩:=x
    have hm : m≠c := fun heq => by
      have hacq := (hs.caller m w rfl).1
      rw [heq,hc] at hacq
      cases hacq
    rw [callerAt,if_neg hm]

/-- Some threads have been released, and nothing else has changed. -/
def Signals (s s' : BarrierServer n θ) : Prop :=
  ∃toRelease waiting,s'={s with toRelease,waiting} ∧ (∀c∈toRelease,c∈s.toRelease) ∧
    ∀c,∀w∈waiting c,w∈s.waiting c

theorem Signals.refl (s : BarrierServer n θ) : Signals s s := ⟨_,_,rfl,fun _ h => h,fun _ _ h => h⟩

theorem Signals.trans {s'' : BarrierServer n θ} (h : Signals s s') (h' : Signals s' s'') : Signals s s'' := by
  obtain ⟨r,wt,rfl,hr,hw⟩ := h
  obtain ⟨r',wt',rfl,hr',hw'⟩ := h'
  exact ⟨r',wt',rfl,fun c hc => hr c (hr' c hc),fun c w hc => hw c w (hw' c w hc)⟩

theorem Base.later (hs : Base caller l s) {t : SubsecondTime} (ht : s.nextBarrierTime≤t) :
    Base caller l {s with nextBarrierTime:=t} := by
  refine ⟨hs.positive,fun c hc => ?_,fun c hc => ?_,fun c hc => ?_,hs.gone,hs.nodup,hs.caller⟩
  · have hlt := hs.passed c hc
    dsimp only
    bv_omega
  · obtain ⟨w,hw,hreached⟩:=hs.acquired c hc
    exact ⟨w,hw,hreached.of_eq rfl rfl rfl rfl⟩
  · obtain ⟨hacq,hmaster,w,hw,hleave⟩:=hs.toRelease c hc
    refine ⟨hacq,hmaster,w,hw,hleave.imp_left fun hlt => ?_⟩
    dsimp only
    bv_omega

theorem mem_passed : c∈s.passed ↔ s.acquired c=true ∧ s.localClock c<s.nextBarrierTime := by
  simp [passed]

theorem Base.unique_caller {m : Fin n} (hs : Base (some (m,w)) l s) (hc : s.acquired c=true)
    (ht : s.coreThread c=some w.thread) : c=m := by
  obtain ⟨v,hv,hreached⟩:=hs.acquired c hc
  by_contra hne
  rw [inside,callerAt,if_neg (Ne.symm hne),append_nil] at hv
  have hthread : v.thread=w.thread := Option.some.inj (hreached.thread.symm.trans ht)
  exact (hs.caller m w rfl).2 c v (hv ▸ mem_singleton_self v) hthread

theorem Base.caller_inside {m : Fin n} (hs : Base (some (m,w)) l s) : s.waiting m=[] ∧ s.Reached l m w := by
  obtain ⟨v,hv,hreached⟩:=hs.acquired m (hs.caller m w rfl).1
  rw [inside,callerAt,if_pos rfl,append_eq_singleton_iff] at hv
  rcases hv with ⟨hempty,hw⟩ | ⟨-,hnil⟩
  · cases hw
    exact ⟨hempty,hreached⟩
  · cases hnil

/-- The caller that is still in the barrier after the cores have been let go. -/
def stillIn (s : BarrierServer n θ) (caller : Option (Fin n × Waiting θ)) : Option (Fin n × Waiting θ) :=
  caller.filter fun x => decide (x.1∉s.passed)

theorem stillIn_of_mem {m : Fin n} (hm : m∈s.passed) (w : Waiting θ) : s.stillIn (some (m,w))=none := by
  simp [stillIn,hm]

theorem stillIn_of_not_mem {m : Fin n} (hm : m∉s.passed) (w : Waiting θ) :
    s.stillIn (some (m,w))=some (m,w) := by
  simp [stillIn,hm]

/-- Both times are at least as late as before. -/
def Later (s s' : BarrierServer n θ) : Prop :=
  s.nextBarrierTime ≤ s'.nextBarrierTime ∧ s.globalTime ≤ s'.globalTime

theorem Later.trans {s'' : BarrierServer n θ} (h : Later s s') (h' : Later s' s'') : Later s s'' := by
  obtain ⟨h1,h2⟩:=h
  obtain ⟨h1',h2'⟩:=h'
  constructor
  · bv_omega
  · bv_omega

theorem Later.refl (s : BarrierServer n θ) : Later s s := ⟨BitVec.le_refl _,BitVec.le_refl _⟩

/-- Some acquired core has not yet been passed. -/
def Ahead (s : BarrierServer n θ) : Prop := ∃c,s.acquired c=true ∧ s.nextBarrierTime ≤ s.localClock c

theorem Base.no_wrap (hs : Base caller l s) (hglobal : s.globalTime<s.nextBarrierTime) (h : s.Ahead) :
    s.nextBarrierTime.toNat+s.barrierInterval.toNat<2^64 := by
  obtain ⟨c,hc,hle⟩:=h
  obtain ⟨w,-,hreached⟩:=hs.acquired c hc
  have hbound := hreached.bounded
  rcases hreached.clock with hclock | ⟨hclock,-⟩
  · rw [hclock] at hle
    bv_omega
  · rw [hclock] at hle
    bv_omega

theorem Base.acquired_of_le (hs : Base caller l s) (hle : s.nextBarrierTime ≤ s.localClock c) :
    s.acquired c=true := by
  by_contra hnot
  have hlt := hs.passed c (Bool.eq_false_iff.mpr hnot)
  bv_omega

theorem Base.shuffle (hs : Base caller l s) {order : List (Fin n)} (hperm : order.Perm s.toRelease) :
    Base caller l {s with toRelease:=order} :=
  ⟨hs.positive,hs.passed,fun c hc => (hs.acquired c hc).imp fun _ h => ⟨h.1,h.2.of_eq rfl rfl rfl rfl⟩,
    fun c hc => hs.toRelease c (hperm.mem_iff.mp hc),
    fun c hc hout => hs.gone c hc fun hin => hout (hperm.mem_iff.mpr hin),hperm.nodup_iff.mpr hs.nodup,
    hs.caller⟩

variable [DecidableEq θ]

/-- The notes are good for the ledger, the result meets `Q`, and no thread is found that has not
restarted. -/
def Keeps {α : Type} (l : Ledger n θ) (x : Observed n θ α) (Q : Ledger n θ → α → Prop) : Prop :=
  Tracks Ledger.note Ledger.Good l x Q (· ≠ .notRestarted)

theorem Base.signalCore {rest : List (Fin n)} (hs : Base caller l s) (hlist : s.toRelease=c::rest) :
    Keeps l ({s with toRelease:=rest}.signalCore c) fun l' s' =>
      l'=l ∧ Base caller l s' ∧ Signals s s' := by
  have hmem : ∀u∈rest,u∈s.toRelease := fun u hu => hlist ▸ mem_cons_of_mem c hu
  have hnodup := hs.nodup
  rw [hlist,nodup_cons] at hnodup
  obtain ⟨hacq,hmaster,w,hinside,hleave⟩:=hs.toRelease c (hlist ▸ mem_cons_self)
  rw [inside,hs.callerAt_nil hacq,append_nil] at hinside
  have hother : ∀u,u≠c → inside { s with
      toRelease := rest,waiting := update s.waiting c [] } caller u=s.inside caller u :=
    fun u hu => by simp [inside,hu]
  have hsub : ∀u,∀v∈update s.waiting c [] u,v∈s.waiting u := fun u v hv => by
    by_cases hne : u=c
    · simp [hne] at hv
    · simpa [hne] using hv
  dsimp only [BarrierServer.signalCore]
  rw [hinside]
  refine .note_bind hleave.good (tracks_pure ⟨rfl,?_,_,_,rfl,hmem,hsub⟩)
  refine ⟨hs.positive,hs.passed,fun u hu => ?_,fun u hu => ?_,fun u hu hout => ?_,hnodup.2,fun m v hm =>
    ⟨(hs.caller m v hm).1,fun u v' hv' => (hs.caller m v hm).2 u v' (hsub u v' hv')⟩⟩
  · have hne : u≠c := fun heq => by
      rw [heq] at hu
      exact Bool.false_ne_true (hacq.symm.trans hu)
    rw [hother u hne]
    obtain ⟨v,hv,hreached⟩:=hs.acquired u hu
    exact ⟨v,hv,hreached.of_eq rfl rfl rfl rfl⟩
  · have hne : u≠c := fun heq => hnodup.1 (heq ▸ hu)
    obtain ⟨hu1,hu2,v,hv,hmay⟩:=hs.toRelease u (hmem u hu)
    exact ⟨hu1,hu2,v,(hother u hne).trans hv,hmay⟩
  · by_cases hne : u=c
    · rw [hne]
      simp [inside,hs.callerAt_nil hacq]
    · rw [hother u hne]
      refine hs.gone u hu fun hin => ?_
      rw [hlist] at hin
      exact (mem_cons.mp hin).elim hne hout

theorem Base.doRelease (hs : Base caller l s) (k : ℕ) :
    Keeps l (doRelease k s) fun l' s' => l'=l ∧ Base caller l s' ∧ Signals s s' := by
  induction k generalizing s with
  | zero => exact tracks_pure ⟨rfl,hs,.refl s⟩
  | succ k ih =>
    rw [BarrierServer.doRelease]
    cases hlist : s.toRelease with
    | nil => exact tracks_pure ⟨rfl,hs,.refl s⟩
    | cons c rest =>
      refine (hs.signalCore hlist).bind fun l' s' _ ⟨hl,hs',hsignals⟩ => ?_
      subst hl
      exact (ih hs').mono fun _ _ h => ⟨h.1,h.2.1,hsignals.trans h.2.2⟩

theorem Base.disturb (hs : Base caller l s) (t : θ) : Base caller (l.note (.disturbs t)) { s with
    localClock := fun c => if s.acquired c ∧ s.coreThread c=some t then 0 else s.localClock c } := by
  have hmono : ∀u,l.disturbed u=true → update l.disturbed t true u=true := fun u hu => by
    by_cases hut : u=t
    · rw [hut,update_self]
    · rw [update_of_ne hut,hu]
  refine ⟨hs.positive,fun c hc => ?_,fun c hc => ?_,fun c hc => ?_,hs.gone,hs.nodup,hs.caller⟩
  · dsimp only
    rw [if_neg fun h => Bool.false_ne_true (hc.symm.trans h.1)]
    exact hs.passed c hc
  · obtain ⟨w,hw,hreached⟩:=hs.acquired c hc
    refine ⟨w,hw,hreached.master,hreached.thread,hreached.reported,hreached.bounded,?_⟩
    dsimp only [Ledger.note]
    by_cases ht : s.coreThread c=some t
    · have hwt : w.thread=t := Option.some.inj (hreached.thread.symm.trans ht)
      rw [if_pos ⟨hc,ht⟩,hwt,update_self]
      exact Or.inr ⟨rfl,rfl⟩
    · rw [if_neg fun h => ht h.2]
      exact hreached.clock.imp_right fun h => ⟨h.1,hmono _ h.2⟩
  · obtain ⟨hacq,hmaster,w,hw,hleave⟩:=hs.toRelease c hc
    exact ⟨hacq,hmaster,w,hw,hleave.imp_right (hmono _)⟩

/-- Some threads have been disturbed and some released, and nothing else has changed. -/
def Disturbs (s s' : BarrierServer n θ) : Prop :=
  ∃localClock toRelease waiting,s'={s with localClock,toRelease,waiting} ∧ ∀c∈toRelease,c∈s.toRelease

theorem Base.releaseThread (hs : Base caller l s) (t : θ) :
    Keeps l (s.releaseThread t) fun l' s' => Base caller l' s' ∧ Disturbs s s' := by
  refine .note_bind trivial (((hs.disturb t).doRelease 1).mono fun l' s' h => ?_)
  obtain ⟨rfl,hs',r,wt,rfl,hr,-⟩ := h
  exact ⟨hs',_,r,wt,rfl,hr⟩

theorem Base.releaseThreads (hs : Base caller l s) (ts : List θ) :
    Keeps l (ts.foldlM BarrierServer.releaseThread s) fun l' s' => Base caller l' s' ∧ Disturbs s s' := by
  induction ts generalizing l s with
  | nil => exact tracks_pure ⟨hs,_,_,_,rfl,fun _ h => h⟩
  | cons t ts ih =>
    rw [foldlM_cons]
    refine (hs.releaseThread t).bind fun l₁ s₁ _ ⟨hs₁,h₁⟩ => (ih hs₁).mono fun l₂ s₂ ⟨hs₂,h₂⟩ => ⟨hs₂,?_⟩
    obtain ⟨lc,r,wt,rfl,hr⟩ := h₁
    obtain ⟨lc',r',wt',rfl,hr'⟩ := h₂
    exact ⟨lc',r',wt',rfl,fun c hc => hr c (hr' c hc)⟩

/-- The barrier time has become the global time, and the next one is an interval later. -/
structure Advanced (s s' : BarrierServer n θ) : Prop where
  global : s'.globalTime=s.nextBarrierTime
  next : s'.nextBarrierTime=s.nextBarrierTime+s.barrierInterval
  acquired : s'.acquired=s.acquired

theorem Base.advance (hs : Base caller l s) (hbound : s.nextBarrierTime.toNat+s.barrierInterval.toNat<2^64)
    (migrated : List θ) :
    Keeps l (s.advance migrated) fun l' s' => Base caller l' s' ∧ Advanced s s' := by
  have hglobal : Base caller l {s with globalTime:=s.nextBarrierTime} :=
    ⟨hs.positive,hs.passed,fun c hc => (hs.acquired c hc).imp fun _ h => ⟨h.1,h.2.of_eq rfl rfl rfl rfl⟩,
      hs.toRelease,hs.gone,hs.nodup,hs.caller⟩
  refine (hglobal.releaseThreads migrated).bind fun l' s' _ ⟨hs',h'⟩ => tracks_pure ?_
  obtain ⟨lc,r,wt,rfl,-⟩ := h'
  refine ⟨hs'.later ?_,rfl,rfl,rfl⟩
  have hpos := hs.positive
  dsimp only
  bv_omega

/-- The cores are let go, and the caller is no longer in the barrier if its core is among them. -/
theorem Base.letGo_of {caller' : Option (Fin n × Waiting θ)} {t : Option θ} (hs : Base caller l s)
    (hsame : ∀c,c∈s.passed ∧ s.coreThread c=t ∨ callerAt caller' c=callerAt caller c)
    (hself : ∀c∈s.passed,s.coreThread c=t → s.inside caller' c=[])
    (hcaller : ∀m w,caller'=some (m,w) → caller=some (m,w) ∧ m∉s.passed) : Base caller' l (s.letGo t) := by
  have hkept : ∀c,(s.letGo t).acquired c=true ↔ s.acquired c=true ∧ c∉s.passed := fun c => by
    rw [mem_passed]
    simp [letGo]
    tauto
  have hfreed : ∀c,(s.letGo t).acquired c=false → s.acquired c=false ∨ c∈s.passed := fun c hc => by
    by_contra hnot
    rw [not_or,Bool.not_eq_false] at hnot
    exact Bool.false_ne_true (hc.symm.trans ((hkept c).mpr hnot))
  have hlist : ∀c,c∈(s.letGo t).toRelease ↔
      (c∈s.passed ∧ s.coreThread c≠t) ∨ c∈s.toRelease := fun c => by
    simp [letGo]
  have hcore : ∀c,c∉s.passed ∨ s.coreThread c≠t → callerAt caller' c=callerAt caller c :=
    fun c hc => (hsame c).resolve_left fun h => hc.elim (fun hp => hp h.1) fun ht => ht h.2
  have hin : ∀c,c∉s.passed ∨ s.coreThread c≠t →
      (s.letGo t).inside caller' c=s.inside caller c := fun c hc => by
    rw [inside,hcore c hc]
    rfl
  refine ⟨hs.positive,fun c hc => ?_,fun c hc => ?_,fun c hc => ?_,fun c hc hout => ?_,?_,fun m w hm => ?_⟩
  · rcases hfreed c hc with hold | hpassed
    · exact hs.passed c hold
    · exact (mem_passed.mp hpassed).2
  · obtain ⟨hacq,hnot⟩:=(hkept c).mp hc
    obtain ⟨w,hw,hreached⟩:=hs.acquired c hacq
    exact ⟨w,(hin c (Or.inl hnot)).trans hw,hreached.of_eq rfl rfl rfl rfl⟩
  · rcases (hlist c).mp hc with ⟨hpassed,ht⟩ | hold
    · have hacq := (mem_passed.mp hpassed).1
      obtain ⟨w,hw,hreached⟩:=hs.acquired c hacq
      refine ⟨?_,hreached.master,w,(hin c (Or.inr ht)).trans hw,?_⟩
      · exact Bool.eq_false_iff.mpr fun htrue => ((hkept c).mp htrue).2 hpassed
      · refine hreached.clock.imp (fun hclock => ?_) And.right
        exact hclock ▸ (mem_passed.mp hpassed).2
    · obtain ⟨hacq,hmaster,w,hw,hleave⟩:=hs.toRelease c hold
      have hnot : c∉s.passed := fun hp => Bool.false_ne_true (hacq.symm.trans (mem_passed.mp hp).1)
      refine ⟨?_,hmaster,w,(hin c (Or.inl hnot)).trans hw,hleave⟩
      exact Bool.eq_false_iff.mpr fun htrue =>
        Bool.false_ne_true (hacq.symm.trans ((hkept c).mp htrue).1)
  · rw [hlist,not_or,not_and_not_right] at hout
    by_cases hpassed : c∈s.passed
    · exact hself c hpassed (hout.1 hpassed)
    · rw [hin c (Or.inl hpassed)]
      exact hs.gone c ((hfreed c hc).resolve_right hpassed) hout.2
  · have hnodup : (s.passed.filter fun c => s.coreThread c≠t).Nodup := (nodup_finRange n).filter _ |>.filter _
    refine nodup_append.mpr ⟨nodup_reverse.mpr hnodup,hs.nodup,fun c hc d hd hcd => ?_⟩
    have hacq := (mem_passed.mp (mem_filter.mp (mem_reverse.mp hc)).1).1
    rw [hcd,(hs.toRelease d hd).1] at hacq
    cases hacq
  · obtain ⟨hold,hnot⟩:=hcaller m w hm
    exact ⟨(hkept m).mpr ⟨(hs.caller m w hold).1,hnot⟩,(hs.caller m w hold).2⟩

theorem Base.letGo (hs : Base caller l s) : Base (s.stillIn caller) l (s.letGo (caller.map (·.2.thread))) := by
  cases caller with
  | none =>
    have hsome : ∀c∈s.passed,s.coreThread c≠none := fun c hc hnone => by
      obtain ⟨w,-,hreached⟩:=hs.acquired c (mem_passed.mp hc).1
      rw [hreached.thread] at hnone
      cases hnone
    exact hs.letGo_of (fun c => Or.inr rfl) (fun c hc h => absurd h (hsome c hc)) fun m w h => by cases h
  | some x =>
    obtain ⟨m,w⟩:=x
    obtain ⟨hempty,hreached⟩:=hs.caller_inside
    by_cases hm : m∈s.passed
    · rw [stillIn_of_mem hm]
      refine hs.letGo_of (fun c => ?_) (fun c hc ht => ?_) fun m w h => by cases h
      · by_cases hc : c=m
        · rw [hc]
          exact Or.inl ⟨hm,hreached.thread⟩
        · exact Or.inr (by rw [callerAt,callerAt,if_neg (Ne.symm hc)])
      · rw [hs.unique_caller (mem_passed.mp hc).1 ht,inside,hempty]
        rfl
    · rw [stillIn_of_not_mem hm]
      refine hs.letGo_of (fun c => Or.inr rfl) (fun c hc ht => absurd hc ?_) fun m w h => ?_
      · rw [hs.unique_caller (mem_passed.mp hc).1 ht]
        exact hm
      · cases h
        exact ⟨rfl,hm⟩

/-- The release stops with the caller in the barrier, or with a caller that may leave. -/
structure Stopped (caller : Option (Fin n × Waiting θ)) (l : Ledger n θ) (mustWait : Bool)
    (s : BarrierServer n θ) : Prop where
  base : Base (if mustWait then caller else none) l s
  global : s.globalTime<s.nextBarrierTime
  leaves : mustWait=false → ∀m w,caller=some (m,w) → s.MayLeave l w

theorem Base.stopped (hs : Base caller l s) (hglobal : s.globalTime<s.nextBarrierTime) :
    Stopped caller l (!(s.passed.any fun c => s.coreThread c=caller.map (·.2.thread)))
      (s.letGo (caller.map (·.2.thread))) := by
  have hletGo := hs.letGo
  cases caller with
  | none =>
    refine ⟨by simpa [stillIn] using hletGo,hglobal,fun _ m w h => by cases h⟩
  | some x =>
    obtain ⟨m,w⟩:=x
    obtain ⟨-,hreached⟩:=hs.caller_inside
    have hany : (s.passed.any fun c => s.coreThread c=(some (m,w)).map (·.2.thread)) =
        decide (m∈s.passed) := by
      rw [Bool.eq_iff_iff,any_eq_true,decide_eq_true_iff]
      constructor
      · rintro ⟨c,hc,ht⟩
        exact hs.unique_caller (mem_passed.mp hc).1 (of_decide_eq_true ht) ▸ hc
      · exact fun hm => ⟨m,hm,decide_eq_true hreached.thread⟩
    rw [hany]
    by_cases hm : m∈s.passed
    · rw [stillIn_of_mem hm] at hletGo
      refine ⟨by simpa [hm] using hletGo,hglobal,fun _ m' w' h => ?_⟩
      cases h
      refine hreached.clock.imp (fun hclock => ?_) And.right
      exact hclock ▸ (mem_passed.mp hm).2
    · rw [stillIn_of_not_mem hm] at hletGo
      exact ⟨by simpa [hm] using hletGo,hglobal,fun h => by simp [hm] at h⟩

theorem Base.advanceUntil (hs : Base caller l s) (hglobal : s.globalTime<s.nextBarrierTime) (hahead : s.Ahead)
    (periods : List (List θ)) : Keeps l (advanceUntil (caller.map (·.2.thread)) periods s) fun l' x =>
      Stopped caller l' x.1 x.2 ∧ Later s x.2 := by
  induction periods generalizing l s with
  | nil => exact tracks_error (by decide)
  | cons migrated periods ih =>
    refine (hs.advance (hs.no_wrap hglobal hahead) migrated).bind fun l' s' _ ⟨hs',hnext⟩ => ?_
    have hbound := hs.no_wrap hglobal hahead
    have hpos := hs.positive
    have hlater : Later s s' := by
      rw [Later,hnext.global,hnext.next]
      constructor
      · bv_omega
      · bv_omega
    have hlt : s'.globalTime<s'.nextBarrierTime := by
      rw [hnext.global,hnext.next]
      bv_omega
    split_ifs with hpassed
    · obtain ⟨c,hc,-⟩ := hahead
      refine (ih hs' hlt ⟨c,hnext.acquired ▸ hc,?_⟩).mono fun _ _ h => ⟨h.1,hlater.trans h.2⟩
      have hnot : c∉s'.passed := hpassed ▸ not_mem_nil
      rw [mem_passed,not_and] at hnot
      have hnlt := hnot (hnext.acquired ▸ hc)
      bv_omega
    · exact tracks_pure ⟨hs'.stopped hlt,hlater⟩

end BarrierServer

end Sniper.Barrier
