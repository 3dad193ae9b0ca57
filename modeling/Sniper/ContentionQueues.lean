import Sniper.PageWalkers

/-!
# The contention model

`ContentionModel` keeps for each of its units the time at which the unit becomes free. Read as a
queue, it serves the requests in their order with as many servers as units.
-/

namespace Sniper.Contention

open PageWalks List

structure ContentionModel where
  time : List (SubsecondTime × UInt64)
  tLast : SubsecondTime

namespace ContentionModel

def new (numOutstanding : ℕ) : ContentionModel :=
  ⟨List.replicate numOutstanding (SubsecondTime.zero,0),SubsecondTime.zero⟩

/-- When a unit is free. -/
def freeAt (s : ContentionModel) (unit : ℕ) : SubsecondTime := (s.time.getD unit (SubsecondTime.zero,0)).1

/-- The loop over the units from `i` on, where `unit` is the best one so far. -/
def findFrom (s : ContentionModel) (tStart : SubsecondTime) : List (SubsecondTime × UInt64) → ℕ → ℕ → ℕ
  | [],unit,_ => unit
  | entry::rest,unit,i =>
    if entry.1≤tStart then i
    else s.findFrom tStart rest (if entry.1<s.freeAt unit then i else unit) (i+1)

variable (s : ContentionModel)

def findUnit (tStart : SubsecondTime) : ℕ := s.findFrom tStart s.time 0 0

def beginTime (tStart : SubsecondTime) : SubsecondTime :=
  if tStart<s.freeAt (s.findUnit tStart) then s.freeAt (s.findUnit tStart) else tStart

def getCompletionTime (tStart tDelay : SubsecondTime) (tag : UInt64) : SubsecondTime × ContentionModel :=
  if s.time.length=0 then (tStart+tDelay,s)
  else if tStart=SubsecondTime.zero then (tDelay,s)
  else if tStart<s.tLast then (tStart+tDelay,s)
  else
    let tEnd := s.beginTime tStart+tDelay
    (tEnd,⟨s.time.set (s.findUnit tStart) (tEnd,tag),tStart⟩)

def getStartTime (tStart : SubsecondTime) : SubsecondTime :=
  if s.time.length=0 then tStart
  else if tStart<s.tLast then tStart
  else if s.time.any (·.1≤tStart) then tStart
  else s.beginTime tStart

def getTagCompletionTime (tag : UInt64) : SubsecondTime :=
  (s.time.find? (·.2 == tag)).elim SubsecondTime.maxTime (·.1)

def hasTag (tag : UInt64) : Bool := s.time.any (·.2 == tag)

end ContentionModel

structure Request where
  start : SubsecondTime
  delay : SubsecondTime
  tag : UInt64

/-- A request with the unit and the completion time that it got. -/
structure Service where
  request : Request
  unit : ℕ
  completion : SubsecondTime

namespace Service

def start (v : Service) : ℕ := (v.completion - v.request.delay).toNat

def finish (v : Service) : ℕ := v.completion.toNat

end Service

/-- A contention model with the requests that it has served. -/
structure Queue where
  model : ContentionModel
  services : List Service

namespace Queue

def serve (q : Queue) (r : Request) : Queue :=
  let (completion,model) := q.model.getCompletionTime r.start r.delay r.tag
  ⟨model,q.services++[⟨r,q.model.findUnit r.start,completion⟩]⟩

def run (numOutstanding : ℕ) (requests : List Request) : Queue := requests.foldl serve ⟨.new numOutstanding,[]⟩

/-- How many services are in progress at a time. -/
def inService (q : Queue) (x : ℕ) : ℕ := overlap Service.start Service.finish q.services x

end Queue

/-- Requests in the order of their times, none of them at time zero. -/
structure InOrder (requests : List Request) : Prop where
  nonzero : ∀r∈requests,r.start≠SubsecondTime.zero
  sorted : requests.Pairwise (·.start ≤ ·.start)

/-- No completion time wraps around. -/
def NoOverflow (numOutstanding : ℕ) (requests : List Request) : Prop :=
  ∀i,(h : i < requests.length) →
    ((Queue.run numOutstanding (requests.take i)).model.getStartTime requests[i].start).toNat +
      requests[i].delay.toNat<2^64

namespace ContentionModel

variable (s : ContentionModel) (tStart : SubsecondTime)

theorem findFrom_spec (done rest : List (SubsecondTime × UInt64)) (unit : ℕ) (htime : s.time=done++rest)
    (hdone : ∀entry∈done,tStart<entry.1 ∧ s.freeAt unit≤entry.1) (hunit : unit<s.time.length) :
    s.findFrom tStart rest unit done.length<s.time.length ∧
      (s.freeAt (s.findFrom tStart rest unit done.length)≤tStart ∨ ∀entry∈s.time,
          tStart<entry.1 ∧ s.freeAt (s.findFrom tStart rest unit done.length)≤entry.1) := by
  induction rest generalizing done unit with
  | nil =>
    rw [append_nil] at htime
    exact ⟨hunit,.inr (htime ▸ hdone)⟩
  | cons entry rest ih =>
    have hlt : done.length<s.time.length := by
      rw [htime,length_append,length_cons]
      omega
    have hentry : s.freeAt done.length=entry.1 := by
      rw [freeAt,htime,getD_append_right _ _ _ _ le_rfl,Nat.sub_self,getD_cons_zero]
    rw [findFrom]
    by_cases hfree : entry.1≤tStart
    · rw [if_pos hfree]
      exact ⟨hlt,.inl (hentry ▸ hfree)⟩
    · rw [if_neg hfree]
      have hbusy : tStart<entry.1 := BitVec.not_le.mp hfree
      rw [← singleton_append,← append_assoc] at htime
      have hlen : done.length+1=(done++[entry]).length := by simp
      rw [hlen]
      apply ih _ _ htime
      · intro e he
        rcases mem_append.mp he with he | he
        · split_ifs with hless
          · have hbest := (hdone e he).2
            exact ⟨(hdone e he).1,by bv_omega⟩
          · exact hdone e he
        · rw [mem_singleton.mp he]
          split_ifs with hless
          · exact ⟨hbusy,hentry ▸ BitVec.le_refl _⟩
          · exact ⟨hbusy,BitVec.not_lt.mp hless⟩
      · split_ifs
        · exact hlt
        · exact hunit

/-- A request begins on arrival, in a unit that is free, or else when the first unit is free. -/
theorem beginTime_spec (h : s.time.length≠0) : ∃hunit : s.findUnit tStart<s.time.length,
      tStart ≤ s.beginTime tStart ∧ (s.time[s.findUnit tStart]).1 ≤ s.beginTime tStart ∧
        (s.beginTime tStart=tStart ∨ s.beginTime tStart=(s.time[s.findUnit tStart]).1 ∧
          ∀entry∈s.time,tStart<entry.1 ∧ s.beginTime tStart≤entry.1) := by
  have hfind := s.findFrom_spec tStart [] s.time 0 rfl (by simp) (Nat.pos_of_ne_zero h)
  rw [length_nil,← findUnit] at hfind
  obtain ⟨hunit,hspec⟩:=hfind
  have hfree : s.freeAt (s.findUnit tStart)=(s.time[s.findUnit tStart]).1 := by
    rw [freeAt,getD_eq_getElem _ _ hunit]
  refine ⟨hunit,?_⟩
  rw [← hfree,beginTime]
  split_ifs with hlt
  · refine ⟨BitVec.le_of_lt hlt,BitVec.le_refl _,.inr ⟨rfl,?_⟩⟩
    rcases hspec with hle | hall
    · exact absurd hlt (BitVec.not_lt.mpr hle)
    · exact hall
  · exact ⟨BitVec.le_refl _,BitVec.not_lt.mp hlt,.inl rfl⟩

theorem getStartTime_of_le (h : s.time.length≠0) (hle : s.tLast≤tStart) :
    s.getStartTime tStart=s.beginTime tStart := by
  rw [getStartTime,if_neg h,if_neg (BitVec.not_lt.mpr hle)]
  split_ifs with hany
  · obtain ⟨entry,he,hfree⟩:=any_eq_true.mp hany
    have hfree := of_decide_eq_true hfree
    obtain ⟨-,-,-,hbegin | ⟨-,hall⟩⟩:=s.beginTime_spec tStart h
    · exact hbegin.symm
    · exact absurd (hall entry he).1 (BitVec.not_lt.mpr hfree)
  · rfl

theorem getCompletionTime_of_le (h : s.time.length≠0) (hzero : tStart≠SubsecondTime.zero)
    (hle : s.tLast≤tStart) (tDelay : SubsecondTime) (tag : UInt64) :
    s.getCompletionTime tStart tDelay tag=(s.beginTime tStart+tDelay,⟨s.time.set (s.findUnit tStart)
        (s.beginTime tStart+tDelay,tag),tStart⟩) := by
  rw [getCompletionTime,if_neg h,if_neg hzero,if_neg (BitVec.not_lt.mpr hle)]

end ContentionModel

theorem InOrder.of_append {pre post : List Request} (h : InOrder (pre++post)) : InOrder pre :=
  ⟨fun r hr => h.nonzero r (mem_append_left _ hr),(pairwise_append.mp h.sorted).1⟩

theorem NoOverflow.of_append {k : ℕ} {pre post : List Request} (h : NoOverflow k (pre++post)) :
    NoOverflow k pre := by
  intro i hi
  have hlt : i<(pre++post).length := by
    rw [length_append]
    omega
  have hcall := h i hlt
  rwa [take_append_of_le_length hi.le,getElem_append_left hi] at hcall

namespace Queue

variable {k : ℕ} {requests : List Request} {r : Request}

theorem run_concat : run k (requests++[r])=(run k requests).serve r := foldl_concat ..

/-- What a run of requests in order leaves in the model. -/
structure Regular (k : ℕ) (requests : List Request) : Prop where
  length : (run k requests).model.time.length=k
  last : (run k requests).model.tLast=requests.getLast?.elim SubsecondTime.zero (·.start)

theorem Regular.length_ne (h : Regular k requests) (hk : k≠0) : (run k requests).model.time.length≠0 := by
  rwa [h.length]

theorem Regular.last_le (h : Regular k requests) (hin : InOrder (requests++[r])) :
    (run k requests).model.tLast ≤ r.start := by
  rw [h.last]
  cases hlast : requests.getLast? with
  | none => exact BitVec.not_lt.mp BitVec.not_lt_zero
  | some r' =>
    exact (pairwise_append.mp hin.sorted).2.2 r' (mem_of_getLast? hlast) r
      (mem_singleton_self r)

theorem Regular.serve (hk : k≠0) (h : Regular k requests) (hin : InOrder (requests++[r])) :
    run k (requests++[r])=let s := (run k requests).model
      let tEnd := s.beginTime r.start+r.delay
      ⟨⟨s.time.set (s.findUnit r.start) (tEnd,r.tag),r.start⟩,
        (run k requests).services++[⟨r,s.findUnit r.start,tEnd⟩]⟩ := by
  have hzero := hin.nonzero r (mem_append_right _ (mem_singleton_self r))
  have hcall := ContentionModel.getCompletionTime_of_le _ _ (h.length_ne hk) hzero (h.last_le hin)
    r.delay r.tag
  rw [run_concat,Queue.serve,hcall]

theorem regular (hk : k≠0) (h : InOrder requests) : Regular k requests := by
  induction requests using List.reverseRecOn with
  | nil => exact ⟨length_replicate,rfl⟩
  | append_singleton requests r ih =>
    have hpre := ih h.of_append
    have hserve := hpre.serve hk h
    constructor
    · rw [hserve,length_set,hpre.length]
    · rw [hserve,List.getLast?_concat,Option.elim_some]

/-- The services in progress from the last request on are the busy units, and at no time there are
more of them than units. -/
structure Tracked (k : ℕ) (q : Queue) : Prop where
  lasts : ∀v∈q.services,v.start+v.request.delay.toNat=v.finish
  busy : ∀x,q.model.tLast.toNat≤x → q.inService x=q.model.time.countP (x < ·.1.toNat)
  limit : ∀x,q.inService x≤k

theorem inService_concat (services : List Service) (model model' : ContentionModel) (v : Service)
    (x : ℕ) : inService ⟨model',services++[v]⟩ x =
      inService ⟨model,services⟩ x+if v.start≤x ∧ x<v.finish then 1 else 0 := by
  rw [inService,overlap,countP_append,countP_singleton]
  simp only [decide_eq_true_eq]
  rfl

/-- A unit that serves from `b` on, either at once or when it is free, is busy in addition. -/
theorem countP_set_busy {l : List (SubsecondTime × UInt64)} {u t b x : ℕ}
    (entry : SubsecondTime × UInt64) (hu : u<l.length) (hfree : (l[u]).1.toNat≤b)
    (hend : b≤entry.1.toNat) (hwait : b=t ∨ b=(l[u]).1.toNat) (hx : t≤x) :
    (l.set u entry).countP (x < ·.1.toNat) =
      l.countP (x < ·.1.toNat)+if b≤x ∧ x<entry.1.toNat then 1 else 0 := by
  have hpos : x<(l[u]).1.toNat → 0<l.countP (x < ·.1.toNat) := fun hlt =>
    countP_pos_iff.mpr ⟨_,getElem_mem hu,decide_eq_true hlt⟩
  rw [countP_set hu]
  simp only [decide_eq_true_eq]
  split_ifs <;> omega

theorem Tracked.serve (hk : k≠0) (hreg : Regular k requests) (hin : InOrder (requests++[r]))
    (hno : ((run k requests).model.beginTime r.start).toNat+r.delay.toNat<2^64)
    (h : Tracked k (run k requests)) : Tracked k (run k (requests++[r])) := by
  have hlast := hreg.last_le hin
  have hlen := hreg.length
  rw [hreg.serve hk hin]
  generalize run k requests=q at *
  obtain ⟨hunit,harrive,hfree,hbegin⟩:=q.model.beginTime_spec r.start (hlen ▸ hk)
  have hend := BitVec.toNat_add_of_lt hno
  have hservice := fun model x => inService_concat q.services q.model model
    ⟨r,q.model.findUnit r.start,q.model.beginTime r.start+r.delay⟩ x
  simp only [Service.start,Service.finish,BitVec.add_sub_cancel] at hservice
  have hbusy : ∀x,r.start.toNat≤x → _ := fun x hx =>
    countP_set_busy (q.model.beginTime r.start+r.delay,r.tag) hunit hfree
      (by rw [hend]; exact Nat.le_add_right _ _)
      (hbegin.imp (congrArg BitVec.toNat) fun hwait => congrArg BitVec.toNat hwait.1) hx
  refine ⟨?_,?_,?_⟩
  · intro v hv
    rcases mem_append.mp hv with hv | hv
    · exact h.lasts v hv
    · rw [mem_singleton.mp hv,Service.start,Service.finish,BitVec.add_sub_cancel,hend]
  · intro x hx
    rw [hbusy x hx,← h.busy x (le_trans hlast hx)]
    exact hservice _ x
  · intro x
    by_cases hx : r.start.toNat≤x
    · have hle := (hbusy x hx).symm.le.trans countP_le_length
      rw [← h.busy x (le_trans hlast hx),length_set,hlen] at hle
      exact (hservice _ x).le.trans hle
    · have hidle : ¬ ((q.model.beginTime r.start).toNat≤x ∧
          x<(q.model.beginTime r.start+r.delay).toNat) := fun hin =>
        hx (le_trans harrive hin.1)
      have hsame := hservice ⟨[],r.start⟩ x
      rw [if_neg hidle] at hsame
      exact hsame.le.trans (h.limit x)

/-- A request begins at the earliest time from its arrival on at which a server is free. -/
theorem Tracked.begin_isLeast {q : Queue} (h : Tracked k q) (hlen : q.model.time.length=k) (hk : k≠0)
    {tStart : SubsecondTime} (hlast : q.model.tLast≤tStart) :
    IsLeast {x | tStart.toNat≤x ∧ q.inService x<k} (q.model.beginTime tStart).toNat := by
  obtain ⟨hunit,harrive,hfree,hbegin⟩:=q.model.beginTime_spec tStart (hlen ▸ hk)
  constructor
  · refine ⟨harrive,?_⟩
    rw [h.busy _ (le_trans hlast harrive),← hlen]
    exact countP_lt_length_iff.mpr
      ⟨_,getElem_mem hunit,decide_eq_false (Nat.not_lt.mpr hfree)⟩
  · rintro x ⟨hx,hless⟩
    rcases hbegin with hbegin | ⟨-,hall⟩
    · rwa [hbegin]
    · by_contra hlt
      rw [h.busy x (le_trans hlast hx),← hlen] at hless
      obtain ⟨entry,he,hdone⟩:=countP_lt_length_iff.mp hless
      have hle := (hall entry he).2
      have hdone := of_decide_eq_false hdone
      bv_omega

theorem tracked (hk : k≠0) (hin : InOrder requests) (hno : NoOverflow k requests) :
    Tracked k (run k requests) := by
  induction requests using List.reverseRecOn with
  | nil =>
    refine ⟨by simp [run],fun x _ => ?_,fun x => Nat.zero_le k⟩
    exact (countP_eq_zero.mpr fun entry he => by
      rw [eq_of_mem_replicate he]
      simp [SubsecondTime.zero]).symm
  | append_singleton requests r ih =>
    have hreg := regular hk hin.of_append
    have hlast := hno requests.length (by simp)
    rw [take_left,getElem_concat_length rfl,
      ContentionModel.getStartTime_of_le _ _ (hreg.length_ne hk) (hreg.last_le hin)] at hlast
    exact (ih hin.of_append hno.of_append).serve hk hreg hin hlast

theorem services_requests (k : ℕ) (requests : List Request) :
    (run k requests).services.map (·.request)=requests := by
  induction requests using List.reverseRecOn with
  | nil => rfl
  | append_singleton requests r ih => rw [run_concat,Queue.serve,map_append,ih]; rfl

theorem getStartTime_zero (hk : k≠0) (hin : InOrder requests) :
    (run k requests).model.getStartTime SubsecondTime.zero=SubsecondTime.zero := by
  have hreg := regular hk hin
  by_cases hlast : (run k requests).model.tLast≤SubsecondTime.zero
  · rw [ContentionModel.getStartTime_of_le _ _ (hreg.length_ne hk) hlast]
    -- only a model without requests has seen no later time
    have hnil : requests=[] := by
      rw [hreg.last] at hlast
      cases hr : requests.getLast? with
      | none => exact List.getLast?_eq_none_iff.mp hr
      | some r =>
        rw [hr,Option.elim_some] at hlast
        have hne := hin.nonzero r (mem_of_getLast? hr)
        exact absurd (BitVec.le_antisymm hlast (BitVec.not_lt.mp BitVec.not_lt_zero)) hne
    obtain ⟨hunit,-,-,hbegin | ⟨hbegin,-⟩⟩:=
      (run k requests).model.beginTime_spec SubsecondTime.zero (hreg.length_ne hk)
    · exact hbegin
    · rw [hbegin]
      subst hnil
      exact congrArg Prod.fst (eq_of_mem_replicate (getElem_mem hunit))
  · rw [ContentionModel.getStartTime,if_neg (hreg.length_ne hk),if_pos (BitVec.not_le.mp hlast)]

theorem getStartTime_add (hk : k≠0) (hin : InOrder requests) (t d : SubsecondTime) (tag : UInt64) :
    (run k requests).model.getStartTime t+d=((run k requests).model.getCompletionTime t d tag).1 := by
  have hlen := (regular hk hin).length_ne hk
  by_cases hzero : t=SubsecondTime.zero
  · rw [hzero,getStartTime_zero hk hin,ContentionModel.getCompletionTime,if_neg hlen,if_pos rfl]
    exact BitVec.zero_add d
  · by_cases hlast : (run k requests).model.tLast≤t
    · rw [ContentionModel.getStartTime_of_le _ _ hlen hlast,
        ContentionModel.getCompletionTime_of_le _ _ hlen hzero hlast]
    · have hlt := BitVec.not_le.mp hlast
      rw [ContentionModel.getStartTime,ContentionModel.getCompletionTime,if_neg hlen,if_neg hlen,if_pos hlt,
        if_neg hzero,if_pos hlt]

end Queue

open Queue in
/-- Requests in order are served by a queue with `k` servers: no more than `k` services are in
progress at a time, each begins as soon as one of the earlier requests has left a server free, and
`getStartTime` tells when the next one would begin. -/
theorem contention_serves_in_order {k : ℕ} (hk : k≠0) {requests : List Request}
    (hin : InOrder requests) (hno : NoOverflow k requests) :
    (run k requests).services.map (·.request)=requests ∧
    (∀v∈(run k requests).services,v.start+v.request.delay.toNat=v.finish) ∧
    (∀x,(run k requests).inService x≤k) ∧
    (∀earlier r later,requests=earlier++r::later →
      IsLeast {x | r.start.toNat≤x ∧ (run k earlier).inService x<k}
        (((run k earlier).model.getCompletionTime r.start r.delay r.tag).1 - r.delay).toNat) ∧
    ∀t d tag,(run k requests).model.getStartTime t+d =
      ((run k requests).model.getCompletionTime t d tag).1 := by
  have htracked := tracked hk hin hno
  refine ⟨services_requests k requests,htracked.lasts,htracked.limit,?_,getStartTime_add hk hin⟩
  rintro earlier r later rfl
  have hnext : InOrder (earlier++[r]) := by
    rw [List.append_cons] at hin
    exact hin.of_append
  have hreg := regular hk hin.of_append
  have hlast := hreg.last_le hnext
  have hzero := hin.nonzero r (List.mem_append_right _ (List.mem_cons_self ..))
  rw [ContentionModel.getCompletionTime_of_le _ _ (hreg.length_ne hk) hzero hlast,BitVec.add_sub_cancel]
  exact (tracked hk hin.of_append hno.of_append).begin_isLeast hreg.length hk hlast

/-- Two units and three requests: the third waits for the first one and begins at 11. -/
theorem contention_serves_three : let requests : List Request := [⟨1,10,1⟩,⟨2,30,2⟩,⟨4,5,3⟩]
    (Queue.run 2 requests).services.map (·.request) = requests ∧
    (∀x,(Queue.run 2 requests).inService x≤2) ∧
    IsLeast {x | 4≤x ∧ (Queue.run 2 [⟨1,10,1⟩,⟨2,30,2⟩]).inService x<2} 11 := by
  intro requests
  obtain ⟨hall,-,hlimit,hleast,-⟩ := contention_serves_in_order (k := 2) (by decide)
    (show InOrder requests from ⟨by decide,by decide⟩) (by unfold NoOverflow; decide +kernel)
  exact ⟨hall,hlimit,hleast [⟨1,10,1⟩,⟨2,30,2⟩] ⟨4,5,3⟩ [] rfl⟩

/-- The services whose unit no later one has got. -/
def unreused : List Service → List Service
  | [] => []
  | v::later => if later.any (·.unit == v.unit) then unreused later else v::unreused later

/-- The most recent service with a tag whose unit has not been reused. -/
def latest (services : List Service) (tag : UInt64) : Option Service :=
  ((unreused services).filter (·.request.tag == tag)).getLast?

theorem unreused_concat (services : List Service) (v : Service) :
    unreused (services++[v])=(unreused services).filter (·.unit != v.unit)++[v] := by
  induction services with
  | nil => rfl
  | cons w later ih =>
    rw [cons_append,unreused,unreused,ih,any_append]
    by_cases hany : later.any (·.unit == w.unit)
    · rw [hany,if_pos rfl,if_pos (Bool.true_or _)]
    · by_cases hw : w.unit=v.unit
      · rw [hw] at hany ⊢
        simp [hany,hw]
      · simp [hany,hw,Ne.symm hw]

/-- Each unit keeps the last service that it has got. -/
structure Queue.Recorded (q : Queue) : Prop where
  kept : ∀v∈unreused q.services,q.model.time[v.unit]?=some (v.completion,v.request.tag)
  unit : ∀ (u : ℕ) entry,q.model.time[u]?=some entry → entry.2≠0 →
    ∃v∈unreused q.services,v.unit=u ∧ entry=(v.completion,v.request.tag)

theorem Queue.recorded {k : ℕ} (hk : k≠0) {requests : List Request} (hin : InOrder requests) :
    (run k requests).Recorded := by
  induction requests using List.reverseRecOn with
  | nil =>
    refine ⟨by simp [run,unreused],fun u entry he hne => ?_⟩
    exact absurd (congrArg Prod.snd (eq_of_mem_replicate (mem_of_getElem? he))) hne
  | append_singleton requests r ih =>
    have hpre := ih hin.of_append
    have hreg := regular hk hin.of_append
    obtain ⟨hunit,-⟩:=(run k requests).model.beginTime_spec r.start (hreg.length_ne hk)
    rw [hreg.serve hk hin]
    generalize run k requests=q at *
    constructor
    · intro v hv
      rw [unreused_concat] at hv
      rcases mem_append.mp hv with hv | hv
      · obtain ⟨hv,hne⟩:=mem_filter.mp hv
        rw [List.getElem?_set_ne (bne_iff_ne.mp hne).symm]
        exact hpre.kept v hv
      · rw [mem_singleton.mp hv,List.getElem?_set_self hunit]
    · intro u entry he hne
      rw [unreused_concat]
      by_cases hu : q.model.findUnit r.start=u
      · rw [← hu,List.getElem?_set_self hunit] at he
        refine ⟨_,mem_append_right _ (mem_singleton_self _),hu,?_⟩
        exact (Option.some.inj he).symm
      · rw [List.getElem?_set_ne hu] at he
        obtain ⟨v,hv,rfl,hentry⟩:=hpre.unit u entry he hne
        refine ⟨v,mem_append_left _ (mem_filter.mpr ⟨hv,?_⟩),rfl,hentry⟩
        exact bne_iff_ne.mpr (Ne.symm hu)

/-- The lookup of a tag that some unit holds gives the completion time of the most recent call with
the tag whose unit has not been reused, exactly when the first unit before that call's unit that
holds the tag, if there is one, completes at the same time. -/
theorem tag_lookup_latest_iff {k : ℕ} (hk : k≠0) {requests : List Request} (hin : InOrder requests)
    {tag : UInt64} (htag : tag≠0) (hheld : (Queue.run k requests).model.hasTag tag) :
    ∃v,latest (Queue.run k requests).services tag=some v ∧
      ((Queue.run k requests).model.getTagCompletionTime tag=v.completion ↔
        ∀entry,((Queue.run k requests).model.time.take v.unit).find? (·.2 == tag)=some entry →
          entry.1=v.completion) := by
  have hrec := Queue.recorded hk hin
  generalize Queue.run k requests=q at *
  obtain ⟨entry,he,hentry⟩:=any_eq_true.mp hheld
  obtain ⟨u,hu⟩:=List.getElem?_of_mem he
  obtain ⟨w,hw,-,rfl⟩:=hrec.unit u entry hu (by rwa [beq_iff_eq.mp hentry])
  have hne : (unreused q.services).filter (·.request.tag == tag)≠[] :=
    ne_nil_of_mem (mem_filter.mpr ⟨hw,hentry⟩)
  refine ⟨_,List.getLast?_eq_some_getLast hne,?_⟩
  obtain ⟨hv,hvtag⟩:=mem_filter.mp (getLast_mem hne)
  generalize List.getLast _ hne=v at *
  have htime := hrec.kept v hv
  obtain ⟨hlt,hget⟩:=List.getElem?_eq_some_iff.mp htime
  have hsplit : q.model.time.find? (·.2 == tag) =
      ((q.model.time.take v.unit).find? (·.2 == tag)).or (some (v.completion,v.request.tag)) := by
    conv_lhs => rw [← take_append_drop v.unit q.model.time,List.find?_append,drop_eq_getElem_cons hlt,hget]
    rw [List.find?_cons,hvtag]
  rw [ContentionModel.getTagCompletionTime,hsplit]
  cases (q.model.time.take v.unit).find? (·.2 == tag) with
  | none => simp
  | some entry => simp

/-- A tag that only one unit holds. -/
theorem tag_lookup_latest_once : ∃v,latest (Queue.run 2 [⟨1,10,5⟩,⟨2,10,6⟩]).services 6=some v ∧
      ((Queue.run 2 [⟨1,10,5⟩,⟨2,10,6⟩]).model.getTagCompletionTime 6=v.completion ↔
        ∀entry,((Queue.run 2 [⟨1,10,5⟩,⟨2,10,6⟩]).model.time.take v.unit).find? (·.2 == 6) =
          some entry → entry.1=v.completion) :=
  tag_lookup_latest_iff (by decide) ⟨by decide,by decide⟩ (by decide) (by decide +kernel)

/-- One of two units: a repeated tag is found with the completion time of the first call. -/
theorem tag_lookup_finds_older : let q := Queue.run 2 [⟨1,10,5⟩,⟨2,10,5⟩]
    (latest q.services 5).map (·.completion)=some 12 ∧ q.model.getTagCompletionTime 5=11 := by
  decide +kernel

end Sniper.Contention
