import Sniper.PageWalkLatency

/-! # What the loops of a page walk compute -/

namespace Sniper.PageWalks.PageWalk
open SubsecondTime List

/-- The access that finds the translation, and when this is done. -/
structure Leaf where
  index : ℕ
  access : WalkAccess
  time : SubsecondTime

/-- `correct_access_translation_time` at a point of the loops. -/
def limit (leaf : Option Leaf) (level tab req : ℕ) : SubsecondTime :=
  match leaf with
  | some l => if Before l.access l.index level tab req then l.time else maxTime
  | none => maxTime

/-- `correct_table` and `correct_level` at a point of the loops. -/
def found (leaf : Option Leaf) (level tab req : ℕ) : Option (ℕ × ℕ) :=
  match leaf with
  | some l =>
    if Before l.access l.index level tab req then some (l.access.tableLevel,l.access.depth) else none
  | none => none

variable (w : PageWalk)

/-- The slowest of the first accesses of a group, if the group is sent. -/
def sentSlowest (leaf : Option Leaf) (tab level : ℕ) (delay : SubsecondTime) (req : ℕ) : SubsecondTime :=
  if w.now+delay<limit leaf level tab 0 then w.slowestBelow tab level req else 0

/-- What is recorded for a group after its first accesses: nothing in the later tables at the depth
of the translation, and in its own group the latency of the access that finds it. -/
def recordedBelow (leaf : Option Leaf) (tab level : ℕ) (delay : SubsecondTime) (req : ℕ) : SubsecondTime :=
  match leaf with
  | some l =>
    if l.access.depth=level ∧ l.access.tableLevel<tab then 0
    else if l.access.depth=level ∧ l.access.tableLevel=tab ∧ l.index < req then
      if w.now+delay < maxTime then w.latency l.index else 0
    else w.sentSlowest (some l) tab level delay req
  | none => w.sentSlowest none tab level delay req

def delayFor (leaf : Option Leaf) (tab : ℕ) : ℕ → SubsecondTime
  | 0 => 0
  | level+1 => delayFor leaf tab level +
      w.recordedBelow leaf tab level (delayFor leaf tab level) w.accesses.length

def recorded (leaf : Option Leaf) (tab level : ℕ) : SubsecondTime :=
  w.recordedBelow leaf tab level (w.delayFor leaf tab level) w.accesses.length

/-- The leaf is the only access that finds a translation. -/
structure IsLeaf (l : Leaf) : Prop where
  access_eq : w.accesses[l.index]?=some l.access
  isPte : l.access.isPte=true
  only : ∀i a,w.accesses[i]?=some a → a.isPte=true → i=l.index
  time_eq : l.time=w.now+w.delayFor none l.access.tableLevel l.access.depth +
    if w.now+w.delayFor none l.access.tableLevel l.access.depth < maxTime then
      w.latency l.index else 0

def Finds (w : PageWalk) : Option Leaf → Prop
  | some l => w.IsLeaf l
  | none => ∀ (i : ℕ) (a : WalkAccess),w.accesses[i]?=some a → a.isPte=false

/-- The variables at a point of the loops. -/
structure AtPoint (leaf : Option Leaf) (level tab req : ℕ) (st : WalkState) : Prop where
  fetchDelay : ∀t≤w.tables,st.fetchDelay t =
    w.delayFor leaf t (if t<tab then level+1 else level)
  latencies : ∀t≤w.tables,∀d,st.latencies t d =
    if d<level ∨ d=level ∧ t<tab then w.recorded leaf t d
    else if d=level ∧ t=tab then w.recordedBelow leaf t d (w.delayFor leaf t d) req
    else 0
  correct : st.correct=found leaf level tab req
  correctTime : st.correctTime=limit leaf level tab req
  sent : ∀i time,(i,time)∈st.sent ↔ ∃a,w.accesses[i]?=some a ∧ Before a i level tab req ∧
    time=w.now+w.delayFor leaf a.tableLevel a.depth ∧ time<limit leaf a.depth a.tableLevel i

/-- The access is before the point of the loops and is sent at the time. -/
def Sends (leaf : Option Leaf) (level tab req i : ℕ) (time : SubsecondTime) : Prop :=
  ∃a,w.accesses[i]?=some a ∧ Before a i level tab req ∧
    time=w.now+w.delayFor leaf a.tableLevel a.depth ∧ time<limit leaf a.depth a.tableLevel i

variable {w} {leaf : Option Leaf} {level tab req level' tab' req' : ℕ} {st : WalkState} {a : WalkAccess}

theorem inGroup_iff : w.inGroup tab level req=true ↔
    ∃a,w.accesses[req]?=some a ∧ a.tableLevel=tab ∧ a.depth=level := by
  simp [inGroup,Option.any_eq_true]

theorem limit_of_before {l : Leaf} (h : Before l.access l.index level tab req) :
    limit (some l) level tab req=l.time := if_pos h

theorem limit_of_not_before {l : Leaf} (h : ¬ Before l.access l.index level tab req) :
    limit (some l) level tab req=maxTime := if_neg h

theorem found_of_before {l : Leaf} (h : Before l.access l.index level tab req) :
    found (some l) level tab req=some (l.access.tableLevel,l.access.depth) := if_pos h

theorem found_of_not_before {l : Leaf} (h : ¬ Before l.access l.index level tab req) :
    found (some l) level tab req=none := if_neg h

theorem limit_congr (h : ∀l,leaf=some l →
    (Before l.access l.index level tab req ↔ Before l.access l.index level' tab' req')) :
    limit leaf level tab req=limit leaf level' tab' req' ∧
      found leaf level tab req=found leaf level' tab' req' := by
  cases leaf with
  | none => exact ⟨rfl,rfl⟩
  | some l => simp only [limit,found,h l rfl,and_self]

/-- Between the two points no access is sent. -/
theorem AtPoint.moved (hleaf : w.Finds leaf) (h : w.AtPoint leaf level tab req st)
    (hiff : ∀a i,w.accesses[i]?=some a → (Before a i level tab req ↔ Before a i level' tab' req')) :
    st.correct=found leaf level' tab' req' ∧ st.correctTime=limit leaf level' tab' req' ∧
      ∀i time,(i,time)∈st.sent ↔ w.Sends leaf level' tab' req' i time := by
  have hpoint : ∀l,leaf=some l →
      (Before l.access l.index level tab req ↔ Before l.access l.index level' tab' req') := by
    rintro l rfl
    exact hiff _ _ (IsLeaf.access_eq hleaf)
  obtain ⟨hlimit,hfound⟩:=limit_congr hpoint
  refine ⟨h.correct.trans hfound,h.correctTime.trans hlimit,fun i time => (h.sent i time).trans ?_⟩
  exact exists_congr fun b => and_congr_right fun hb => and_congr_left' (hiff b i hb)

theorem sentSlowest_skip (hgroup : w.inGroup tab level req=false) (delay : SubsecondTime) :
    w.sentSlowest leaf tab level delay (req+1)=w.sentSlowest leaf tab level delay req := by
  simp [sentSlowest,slowestBelow,hgroup]

theorem recordedBelow_zero (leaf : Option Leaf) (delay : SubsecondTime) :
    w.recordedBelow leaf tab level delay 0=0 := by
  cases leaf with
  | none => exact ite_self _
  | some l =>
    unfold recordedBelow
    dsimp only
    rw [if_neg (fun h : l.access.depth=level ∧ l.access.tableLevel=tab ∧ l.index<0 =>
      Nat.not_lt_zero _ h.2.2)]
    split_ifs
    · rfl
    · exact ite_self _

theorem recordedBelow_leaf (l : Leaf) (delay : SubsecondTime) (h : l.index < req) :
    w.recordedBelow (some l) l.access.tableLevel l.access.depth delay req =
      if w.now+delay < maxTime then w.latency l.index else 0 := by
  unfold recordedBelow
  dsimp only
  rw [if_neg (fun h => lt_irrefl _ h.2),if_pos ⟨rfl,rfl,h⟩]

theorem delayFor_eq_none {l : Leaf}
    (h : level≤l.access.depth ∨ level=l.access.depth+1 ∧ tab<l.access.tableLevel) :
    w.delayFor (some l) tab level=w.delayFor none tab level := by
  induction level with
  | zero => rfl
  | succ level ih =>
    have hlimit : limit (some l) level tab 0=maxTime := by
      apply limit_of_not_before
      unfold Before
      omega
    rw [delayFor,delayFor,ih (by omega)]
    congr 1
    simp only [recordedBelow]
    rw [if_neg (by omega),if_neg (by omega),sentSlowest,hlimit]
    rfl

theorem Finds.index_ne {l : Leaf} (hleaf : w.Finds (some l)) (hreq : w.accesses[req]?=some a)
    (hpte : a.isPte=false) : l.index≠req := by
  intro heq
  have hl := IsLeaf.access_eq hleaf
  rw [heq,hreq] at hl
  cases hl
  rw [IsLeaf.isPte hleaf] at hpte
  cases hpte

theorem recordedBelow_usual (hgroup : w.inGroup tab level req=true) {delay : SubsecondTime}
    (hlimit : limit leaf level tab req=limit leaf level tab 0)
    (hfound : (found leaf level tab req).map Prod.snd≠some level)
    (hrecorded : ∀r ≤ req+1,w.recordedBelow leaf tab level delay r =
      w.sentSlowest leaf tab level delay r) :
    (if w.recordedBelow leaf tab level delay req <
        (if w.now+delay<limit leaf level tab req then w.latency req else 0) ∧
        (found leaf level tab req).map Prod.snd≠some level then
      (if w.now+delay<limit leaf level tab req then w.latency req else 0)
    else w.recordedBelow leaf tab level delay req) =
      w.recordedBelow leaf tab level delay (req+1) := by
  rw [hlimit,hrecorded req (Nat.le_succ req),hrecorded (req+1) le_rfl]
  simp only [hfound,not_false_eq_true,ne_eq,and_true]
  simp only [sentSlowest,slowestBelow,hgroup,true_and]
  split_ifs <;> rfl

theorem recordedBelow_succ (hleaf : w.Finds leaf) (hreq : w.accesses[req]?=some a)
    (hpte : a.isPte=false) (delay : SubsecondTime) :
    (if w.recordedBelow leaf a.tableLevel a.depth delay req <
        (if w.now+delay<limit leaf a.depth a.tableLevel req then w.latency req else 0) ∧
        (found leaf a.depth a.tableLevel req).map Prod.snd≠some a.depth then
      (if w.now+delay<limit leaf a.depth a.tableLevel req then w.latency req else 0)
    else w.recordedBelow leaf a.tableLevel a.depth delay req) =
      w.recordedBelow leaf a.tableLevel a.depth delay (req+1) := by
  have hgroup : w.inGroup a.tableLevel a.depth req=true := inGroup_iff.mpr ⟨a,hreq,rfl,rfl⟩
  cases leaf with
  | none => exact recordedBelow_usual hgroup rfl (by simp [found]) fun _ _ => rfl
  | some l =>
    have hne := Finds.index_ne hleaf hreq hpte
    by_cases hown : l.access.depth=a.depth ∧ (l.access.tableLevel<a.tableLevel ∨
        l.access.tableLevel=a.tableLevel ∧ l.index < req)
    · -- the translation was found at this depth, and nothing is recorded
      have hbefore : Before l.access l.index a.depth a.tableLevel req := Or.inr hown
      rw [found_of_before hbefore,if_neg (fun h => h.2 (congrArg some hown.1))]
      simp only [recordedBelow]
      split_ifs <;> first | rfl | omega
    · apply recordedBelow_usual hgroup
      · refine (limit_congr ?_).1
        rintro _ ⟨⟩
        unfold Before
        omega
      · by_cases hbefore : Before l.access l.index a.depth a.tableLevel req
        · rw [found_of_before hbefore]
          unfold Before at hbefore
          intro heq
          have hdepth := Option.some.inj heq
          simp only at hdepth
          omega
        · rw [found_of_not_before hbefore]
          simp
      · intro r hr
        simp only [recordedBelow]
        rw [if_neg (by omega),if_neg (by omega)]

theorem AtPoint.visit_sent_iff (h : w.AtPoint leaf a.depth a.tableLevel req st)
    (hreq : w.accesses[req]?=some a) {start : SubsecondTime}
    (hstart : start=w.now+w.delayFor leaf a.tableLevel a.depth) (i : ℕ) (time : SubsecondTime) :
    (i,time)∈(if start<st.correctTime then st.sent++[(req,start)] else st.sent) ↔
      w.Sends leaf a.depth a.tableLevel (req+1) i time := by
  subst hstart
  have hsplit : w.Sends leaf a.depth a.tableLevel (req+1) i time ↔ (i,time)∈st.sent ∨
      i=req ∧ time=w.now+w.delayFor leaf a.tableLevel a.depth ∧ time<st.correctTime := by
    rw [h.sent,h.correctTime]
    constructor
    · rintro ⟨b,hb,hbefore,htime⟩
      by_cases hi : i=req
      · subst hi
        rw [hreq] at hb
        cases hb
        exact Or.inr ⟨rfl,htime⟩
      · refine Or.inl ⟨b,hb,?_,htime⟩
        unfold Before at hbefore ⊢
        omega
    · rintro (⟨b,hb,hbefore,htime⟩ | ⟨rfl,htime⟩)
      · refine ⟨b,hb,?_,htime⟩
        unfold Before at hbefore ⊢
        omega
      · refine ⟨a,hreq,?_,htime⟩
        unfold Before
        omega
  rw [hsplit]
  split_ifs with hlt
  · simp only [mem_append,mem_singleton,Prod.mk.injEq]
    refine or_congr_right (and_congr_right fun _ => ⟨?_,And.left⟩)
    rintro rfl
    exact ⟨rfl,hlt⟩
  · constructor
    · exact Or.inl
    · rintro (hold | ⟨-,rfl,hlt'⟩)
      · exact hold
      · exact absurd hlt' hlt

theorem AtPoint.skip (hleaf : w.Finds leaf) (h : w.AtPoint leaf level tab req st)
    (hgroup : w.inGroup tab level req=false) : w.AtPoint leaf level tab (req+1) st := by
  have hnot : ∀b,w.accesses[req]?=some b → ¬ (b.tableLevel=tab ∧ b.depth=level) := by
    intro b hb hin
    rw [inGroup_iff.mpr ⟨b,hb,hin⟩] at hgroup
    cases hgroup
  have hiff : ∀b i,w.accesses[i]?=some b → (Before b i level tab req ↔ Before b i level tab (req+1)) := by
    intro b i hb
    by_cases hi : i=req
    · subst hi
      have hb' := hnot b hb
      unfold Before
      omega
    · unfold Before
      omega
  obtain ⟨hfound,hlimit,hsent⟩:=h.moved hleaf hiff
  refine ⟨h.fetchDelay,fun t ht d => ?_,hfound,hlimit,hsent⟩
  rw [h.latencies t ht d]
  split_ifs with hdone hcurrent
  · rfl
  · obtain ⟨rfl,rfl⟩:=hcurrent
    cases leaf with
    | none => exact (sentSlowest_skip hgroup _).symm
    | some l =>
      have hl := hiff _ _ (IsLeaf.access_eq hleaf)
      unfold Before at hl
      simp only [recordedBelow]
      rw [sentSlowest_skip hgroup]
      split_ifs <;> first | rfl | omega
  · rfl

theorem access_plain (w : PageWalk) (st : WalkState) (req : ℕ) {a : WalkAccess} (hpte : a.isPte=false) :
    w.access st req a=let start := w.now+st.fetchDelay a.tableLevel
    let latency := if start<st.correctTime then w.latency req else 0
    { st.setLatency a.tableLevel a.depth
        (if st.latencies a.tableLevel a.depth<latency ∧ st.correct.map Prod.snd≠some a.depth then
          latency else st.latencies a.tableLevel a.depth) with
      sent := if start<st.correctTime then st.sent++[(req,start)] else st.sent } := by
  have hkeep : (fun t l => if t=a.tableLevel ∧ l=a.depth then st.latencies a.tableLevel a.depth
      else st.latencies t l)=st.latencies := by
    funext t l
    split_ifs with h
    · rw [h.1,h.2]
    · rfl
  simp only [access,hpte,Bool.false_eq_true,if_false]
  split_ifs <;> simp only [WalkState.setLatency,hkeep]

section

variable (h : w.AtPoint leaf level tab req st)
include h

theorem AtPoint.start_eq (hle : tab≤w.tables) : st.fetchDelay tab=w.delayFor leaf tab level := by
  rw [h.fetchDelay tab hle,if_neg (lt_irrefl tab)]

theorem AtPoint.latency_eq (hle : tab≤w.tables) :
    st.latencies tab level=w.recordedBelow leaf tab level (w.delayFor leaf tab level) req := by
  rw [h.latencies tab hle,if_neg (by omega),if_pos ⟨rfl,rfl⟩]

theorem AtPoint.setLatency {latency : SubsecondTime}
    (hlatency : latency=w.recordedBelow leaf tab level (w.delayFor leaf tab level) (req+1)) :
    ∀t≤w.tables,∀d,(st.setLatency tab level latency).latencies t d =
      if d<level ∨ d=level ∧ t<tab then w.recorded leaf t d
      else if d=level ∧ t=tab then w.recordedBelow leaf t d (w.delayFor leaf t d) (req+1)
      else 0 := by
  intro t ht d
  simp only [WalkState.setLatency]
  by_cases hcurrent : t=tab ∧ d=level
  · obtain ⟨rfl,rfl⟩:=hcurrent
    rw [if_pos ⟨rfl,rfl⟩,if_neg (by omega),if_pos ⟨rfl,rfl⟩,hlatency]
  · rw [if_neg hcurrent,h.latencies t ht d]
    split_ifs <;> first | rfl | omega

end

theorem AtPoint.plain (hleaf : w.Finds leaf) (h : w.AtPoint leaf level tab req st)
    (hreq : w.accesses[req]?=some a) (hdepth : a.depth=level) (htab : a.tableLevel=tab) (hle : tab≤w.tables)
    (hpte : a.isPte=false) : w.AtPoint leaf level tab (req+1) (w.access st req a) := by
  subst hdepth htab
  have hpoint : ∀l,leaf=some l → (Before l.access l.index a.depth a.tableLevel req ↔
      Before l.access l.index a.depth a.tableLevel (req+1)) := by
    rintro l rfl
    have hne := Finds.index_ne hleaf hreq hpte
    unfold Before
    omega
  obtain ⟨hlimit,hfound⟩:=limit_congr hpoint
  have hstart := congrArg (w.now+ ·) (h.start_eq hle)
  rw [access_plain w st req hpte]
  refine ⟨h.fetchDelay,?_,hfound ▸ h.correct,hlimit ▸ h.correctTime,?_⟩
  · apply h.setLatency
    rw [hstart,h.latency_eq hle,h.correct,h.correctTime]
    exact recordedBelow_succ hleaf hreq hpte _
  · exact h.visit_sent_iff hreq hstart

theorem AtPoint.atLeaf {l : Leaf} (hleaf : w.IsLeaf l)
    (h : w.AtPoint (some l) l.access.depth l.access.tableLevel l.index st)
    (hle : l.access.tableLevel≤w.tables) :
    w.AtPoint (some l) l.access.depth l.access.tableLevel (l.index+1) (w.access st l.index l.access) := by
  have hbefore : ¬ Before l.access l.index l.access.depth l.access.tableLevel l.index := by
    unfold Before
    omega
  have hafter : Before l.access l.index l.access.depth l.access.tableLevel (l.index+1) := by
    unfold Before
    omega
  have hstart : w.now+st.fetchDelay l.access.tableLevel =
      w.now+w.delayFor (some l) l.access.tableLevel l.access.depth := by
    rw [h.start_eq hle]
  have hmax : st.correctTime=maxTime := by
    rw [h.correctTime,limit_of_not_before hbefore]
  have hdelay : w.delayFor (some l) l.access.tableLevel l.access.depth =
      w.delayFor none l.access.tableLevel l.access.depth := delayFor_eq_none (Or.inl le_rfl)
  simp only [access,hleaf.isPte,if_true]
  refine ⟨h.fetchDelay,?_,(found_of_before hafter).symm,?_,?_⟩
  · apply h.setLatency
    rw [hstart,hmax,recordedBelow_leaf l _ (Nat.lt_succ_self _)]
  · show w.now+st.fetchDelay l.access.tableLevel+_=_
    rw [limit_of_before hafter,hleaf.time_eq,hstart,hmax,hdelay]
  · exact h.visit_sent_iff hleaf.access_eq hstart

theorem AtPoint.visit (hleaf : w.Finds leaf) (h : w.AtPoint leaf level tab req st) (hle : tab≤w.tables) :
    w.AtPoint leaf level tab (req+1) (w.visit level tab st req) := by
  rw [PageWalk.visit]
  cases hreq : w.accesses[req]? with
  | none =>
    apply h.skip hleaf
    simp [inGroup,hreq]
  | some a =>
    dsimp only
    split_ifs with hgroup
    · obtain ⟨hdepth,htab⟩:=hgroup
      cases hpte : a.isPte with
      | false => exact h.plain hleaf hreq hdepth htab hle hpte
      | true =>
        cases leaf with
        | none => exact absurd (hleaf req a hreq) (by simp [hpte])
        | some l =>
          have hindex := IsLeaf.only hleaf req a hreq hpte
          have haccess := IsLeaf.access_eq hleaf
          subst hindex hdepth htab
          rw [hreq] at haccess
          cases haccess
          exact h.atLeaf hleaf hle
    · apply h.skip hleaf
      simp only [inGroup,hreq,Option.any_some,Bool.and_eq_false_iff,beq_eq_false_iff_ne]
      omega

theorem AtPoint.visits (hleaf : w.Finds leaf) (h : w.AtPoint leaf level tab 0 st) (hle : tab≤w.tables)
    (count : ℕ) : w.AtPoint leaf level tab count ((List.range count).foldl (w.visit level tab) st) := by
  induction count with
  | zero => exact h
  | succ count ih =>
    rw [range_succ,foldl_append]
    exact ih.visit hleaf hle

theorem AtPoint.visitTable (hleaf : w.Finds leaf) (h : w.AtPoint leaf level tab 0 st) (hle : tab≤w.tables) :
    w.AtPoint leaf level (tab+1) 0 (w.visitTable level st tab) := by
  have hlast := h.visits hleaf hle w.accesses.length
  have hiff : ∀b i,w.accesses[i]?=some b →
      (Before b i level tab w.accesses.length ↔ Before b i level (tab+1) 0) := by
    intro b i hb
    have hi := (List.getElem?_eq_some_iff.mp hb).1
    unfold Before
    omega
  obtain ⟨hfound,hlimit,hsent⟩:=hlast.moved hleaf hiff
  refine ⟨fun t ht => ?_,fun t ht d => ?_,hfound,hlimit,hsent⟩
  · simp only [PageWalk.visitTable,finishTable,Function.update_apply]
    by_cases htab : t=tab
    · subst htab
      rw [if_pos rfl,hlast.start_eq hle,hlast.latency_eq hle,if_pos (Nat.lt_succ_self t)]
      rfl
    · rw [if_neg htab,hlast.fetchDelay t ht]
      congr 1
      split_ifs <;> omega
  · simp only [PageWalk.visitTable,finishTable]
    rw [hlast.latencies t ht d]
    by_cases hcurrent : d=level ∧ t=tab
    · obtain ⟨rfl,rfl⟩:=hcurrent
      rw [if_neg (by omega),if_pos ⟨rfl,rfl⟩,if_pos (by omega)]
      rfl
    · rw [recordedBelow_zero,ite_self]
      split_ifs <;> first | rfl | omega

theorem AtPoint.visitTables (hleaf : w.Finds leaf) (h : w.AtPoint leaf level 0 0 st) {count : ℕ}
    (hcount : count≤w.tables+1) :
    w.AtPoint leaf level count 0 ((List.range count).foldl (w.visitTable level) st) := by
  induction count with
  | zero => exact h
  | succ count ih =>
    rw [range_succ,foldl_append]
    exact (ih (Nat.le_of_succ_le hcount)).visitTable hleaf (Nat.le_of_succ_le_succ hcount)

theorem foldl_max_ge (f : WalkAccess → ℕ) (l : List WalkAccess) (m : ℕ) :
    m≤l.foldl (fun m a => if m<f a then f a else m) m ∧
      ∀a∈l,f a≤l.foldl (fun m a => if m<f a then f a else m) m := by
  induction l generalizing m with
  | nil => exact ⟨le_rfl,fun a ha => absurd ha not_mem_nil⟩
  | cons b l ih =>
    obtain ⟨hstart,hall⟩:=ih (if m<f b then f b else m)
    have hboth : m≤(if m<f b then f b else m) ∧ f b≤(if m<f b then f b else m) := by
      split_ifs <;> omega
    refine ⟨hboth.1.trans hstart,fun a ha => ?_⟩
    rcases mem_cons.mp ha with rfl | ha
    · exact hboth.2.trans hstart
    · exact hall a ha

theorem tableLevel_le {i : ℕ} (h : w.accesses[i]?=some a) : a.tableLevel≤w.tables :=
  (foldl_max_ge (fun a => a.tableLevel) w.accesses 0).2 a (mem_of_getElem? h)

theorem depth_le {i : ℕ} (h : w.accesses[i]?=some a) : a.depth≤w.levels :=
  (foldl_max_ge (fun a => a.depth) w.accesses 0).2 a (mem_of_getElem? h)

theorem AtPoint.nextLevel (hleaf : w.Finds leaf) (h : w.AtPoint leaf level (w.tables+1) 0 st) :
    w.AtPoint leaf (level+1) 0 0 st := by
  have hiff : ∀b i,w.accesses[i]?=some b →
      (Before b i level (w.tables+1) 0 ↔ Before b i (level+1) 0 0) := by
    intro b i hb
    have htab := tableLevel_le hb
    unfold Before
    omega
  obtain ⟨hfound,hlimit,hsent⟩:=h.moved hleaf hiff
  refine ⟨fun t ht => ?_,fun t ht d => ?_,hfound,hlimit,hsent⟩
  · rw [h.fetchDelay t ht,if_pos (Nat.lt_succ_of_le ht),if_neg (Nat.not_lt_zero t)]
  · rw [h.latencies t ht d]
    simp only [recordedBelow_zero,ite_self]
    split_ifs <;> first | rfl | omega

theorem atPoint_new (w : PageWalk) (leaf : Option Leaf) : w.AtPoint leaf 0 0 0 .new := by
  have hnot : ∀ (b : WalkAccess) (i : ℕ),¬ Before b i 0 0 0 := by
    intro b i
    unfold Before
    omega
  refine ⟨fun t _ => ?_,fun t _ d => ?_,?_,?_,fun i time => ?_⟩
  · rw [if_neg (Nat.not_lt_zero t)]
    rfl
  · rw [if_neg (by omega),recordedBelow_zero,ite_self]
    rfl
  · cases leaf with
    | none => rfl
    | some l => exact (found_of_not_before (hnot _ _)).symm
  · cases leaf with
    | none => rfl
    | some l => exact (limit_of_not_before (hnot _ _)).symm
  · simp [WalkState.new,hnot]

theorem atPoint_walk (hleaf : w.Finds leaf) : w.AtPoint leaf (w.levels+1) 0 0 w.walk := by
  have hlevels : ∀count,w.AtPoint leaf count 0 0
      ((List.range count).foldl w.visitLevel .new) := by
    intro count
    induction count with
    | zero => exact atPoint_new w leaf
    | succ count ih =>
      rw [range_succ,foldl_append]
      exact (ih.visitTables hleaf le_rfl).nextLevel hleaf
  exact hlevels (w.levels+1)

theorem sent_iff (hleaf : w.Finds leaf) (i : ℕ) (time : SubsecondTime) :
    (i,time)∈w.walk.sent ↔ ∃a,w.accesses[i]?=some a ∧
      time=w.now+w.delayFor leaf a.tableLevel a.depth ∧ time<limit leaf a.depth a.tableLevel i := by
  rw [(atPoint_walk hleaf).sent]
  apply exists_congr
  intro a
  apply and_congr_right
  intro ha
  apply and_iff_right
  exact Or.inl (Nat.lt_succ_of_le (depth_le ha))

theorem addLevels_eq (hleaf : w.Finds leaf) (hle : tab≤w.tables) (acc : SubsecondTime) :
    w.addLevels tab acc=acc+w.delayFor leaf tab (w.levels+1) := by
  have hsum : ∀count≤w.levels+1,(List.range count).foldl
      (fun acc level => acc+w.walk.latencies tab level) acc=acc+w.delayFor leaf tab count := by
    intro count hcount
    induction count with
    | zero => exact (add_zero acc).symm
    | succ count ih =>
      rw [range_succ,foldl_append,ih (Nat.le_of_succ_le hcount)]
      show acc+w.delayFor leaf tab count+w.walk.latencies tab count=_
      rw [(atPoint_walk hleaf).latencies tab hle count,if_pos (Or.inl (Nat.lt_of_succ_le hcount)),add_assoc]
      rfl
  exact hsum (w.levels+1) le_rfl

end Sniper.PageWalks.PageWalk
