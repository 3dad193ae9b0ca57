import Sniper.BlockProcessing
import Sniper.DirectoryMessages

/-! # The messages of the caches keep the invariant -/

namespace Sniper.Coherence
open FallibleRuns Function List

variable {n : ℕ} {δ : Type}

/-- The entry `e'` is `e` without the sharer `c`. -/
structure DirectoryEntry.Loses (e e' : DirectoryEntry n) (c : Fin n) : Prop where
  sharers : e'.sharers=e.sharers.erase c
  dstate : e'.dstate=if e.sharers.erase c = ∅ then .uncached else e.dstate
  forwarder : ∀d∈e'.forwarder,d∈e.forwarder ∧ d≠c

section Loses

variable {e e' : DirectoryEntry n} {c d : Fin n} {maxHwSharers : ℕ}

theorem DirectoryEntry.Proper.shared_of_erase (he : e.Proper maxHwSharers) (hc : c∈e.sharers)
    (h : e.sharers.erase c ≠ ∅) : e.dstate = .shared := by
  by_contra hs
  obtain ⟨d,hd⟩:=Finset.nonempty_iff_ne_empty.mpr h
  rw [Finset.mem_erase] at hd
  exact hd.1 (he.eq_of_owned hs hd.2 hc)

theorem DirectoryEntry.Loses.cases (hl : e.Loses e' c) (he : e.Proper maxHwSharers) (hc : c∈e.sharers) :
    e'.dstate = .uncached ∧ e.sharers={c} ∧ e'.sharers = ∅ ∨
      e'.dstate = .shared ∧ e.dstate = .shared ∧ e'.sharers ≠ ∅ := by
  by_cases h : e.sharers.erase c = ∅
  · refine Or.inl ⟨by rw [hl.dstate,if_pos h],?_,by rw [hl.sharers,h]⟩
    rcases Finset.erase_eq_empty_iff _ _ |>.mp h with hempty | hsingle
    · rw [hempty] at hc
      exact absurd hc (Finset.notMem_empty c)
    · exact hsingle
  · have hs := he.shared_of_erase hc h
    exact Or.inr ⟨by rw [hl.dstate,if_neg h,hs],hs,by rwa [hl.sharers]⟩

theorem DirectoryEntry.Loses.proper (hl : e.Loses e' c) (he : e.Proper maxHwSharers) (hc : c∈e.sharers) :
    e'.Proper maxHwSharers := by
  have hcard : e'.sharers.card ≤ maxHwSharers := by
    rw [hl.sharers]
    exact (Finset.card_le_card (Finset.erase_subset _ _)).trans he.bounded
  rcases hl.cases he hc with ⟨hu,-,hempty⟩ | ⟨hs,-,hne⟩
  · refine ⟨⟨fun _ => hempty,fun _ => hu⟩,fun h => ?_,hcard⟩
    rw [hu] at h
    simp at h
  · refine ⟨⟨fun h => ?_,fun h => absurd h hne⟩,fun h => ?_,hcard⟩
    · rw [hs] at h
      cases h
    · rw [hs] at h
      simp at h

theorem DirectoryEntry.Loses.forwardsShared (hl : e.Loses e' c) (h : e.ForwardsShared) : e'.ForwardsShared := by
  intro d hd
  obtain ⟨hmem,hne⟩:=hl.forwarder d hd
  rw [hl.sharers,Finset.mem_erase]
  exact ⟨hne,h d hmem⟩

theorem DirectoryEntry.loses_uncacheIfEmpty (hsharers : e'.sharers=e.sharers.erase c)
    (hdstate : e'.dstate=e.dstate) (hforwarder : ∀d∈e'.forwarder,d∈e.forwarder ∧ d≠c) :
    e.Loses e'.uncacheIfEmpty c := by
  unfold uncacheIfEmpty numSharers
  rw [hsharers]
  split_ifs with hcard
  · exact ⟨rfl,by rw [if_pos (Finset.card_eq_zero.mp hcard)],hforwarder⟩
  · exact ⟨hsharers,by rw [if_neg (mt Finset.card_eq_zero.mpr hcard),hdstate],hforwarder⟩

theorem DirectoryEntry.loses_invRep (e : DirectoryEntry n) (c : Fin n) :
    e.Loses ((DirectoryEntry.forgetForwarder {e with sharers:=e.sharers.erase c} c).uncacheIfEmpty)
      c := by
  refine loses_uncacheIfEmpty rfl rfl fun d hd => ?_
  simp only [forgetForwarder,Option.mem_def] at hd
  split_ifs at hd with hf
  refine ⟨hd,?_⟩
  rintro rfl
  exact hf hd

theorem DirectoryEntry.loses_flushRep (e : DirectoryEntry n) (c : Fin n) :
    e.Loses (DirectoryEntry.uncacheIfEmpty
      {e with sharers:=e.sharers.erase c,forwarder:=none,owner:=none}) c :=
  loses_uncacheIfEmpty rfl rfl fun d hd => by cases hd

theorem DirectoryEntry.Proper.writtenBack (he : e.Proper maxHwSharers) (hc : c∈e.sharers) :
    ({e with owner:=none,dstate:=.shared} : DirectoryEntry n).Proper maxHwSharers := by
  refine ⟨⟨fun h => (by cases h),fun h => ?_⟩,fun h => ?_,he.bounded⟩
  · rw [show e.sharers = ∅ from h] at hc
    exact absurd hc (Finset.notMem_empty c)
  · simp at h

end Loses

theorem ShmemReq.ask_erase {r : ShmemReq n} {e e' : DirectoryEntry n} {c : Fin n} (hs : e.dstate = .shared)
    (hs' : e'.dstate = .shared) (he : e'.sharers=e.sharers.erase c)
    (hr : r.type = .upgradeReq → r.requester≠c) (d : Fin n) : r.ask e' d=r.ask e d := by
  unfold ask
  rw [hs,hs']
  cases ht : r.type with
  | upgradeReq =>
    have hmem : r.requester∈e'.sharers ↔ r.requester∈e.sharers := by
      rw [he,Finset.mem_erase]
      exact and_iff_right (hr ht)
    simp only [hmem]
  | _ => rfl

namespace Block

theorem popMessage_lines (b : Block n δ) (c d : Fin n) :
    (b.popMessage c).lines d=if d=c then (b.lines d).handOver else b.lines d := by
  by_cases h : d=c
  · subst h
    simp [popMessage]
  · simp [popMessage,h]

theorem handOver_shape (l : Line δ) (q : Option RequestType) : l.handOver.shape q=(l.shape q).received := by
  simp only [Line.shape,Line.handOver,Shape.received,map_tail]

/-- The block `b'` is `b` after the cache `c` has given up its copy. -/
structure Gives (b b' : Block n δ) (c : Fin n) : Prop where
  loses : b.entry.Loses b'.entry c
  sharer : c∈b.entry.sharers
  notAwaited : awaited b.queue≠some c
  queue : b'.queue=b.queue
  line : (b'.lines c).shape (queuedRequest b.queue c)∈shapes .outside
  others : ∀d≠c,b'.lines d=b.lines d

section Gives

variable {cfg : DirectoryConfig} {b b' : Block n δ} {c : Fin n}

variable (g : b.Gives b' c) (h : b.Rests cfg)
include g h

theorem Gives.sound : b'.Sound cfg := ⟨g.loses.proper h.proper g.sharer,g.queue ▸ h.distinct,g.queue ▸ h.fresh⟩

theorem Gives.fits {asks : Fin n → Ask} (hasks : ∀d∈b'.entry.sharers,asks d=asked b.entry b.queue d) :
    b'.Fits asks := by
  intro d
  rw [g.queue]
  by_cases hd : d=c
  · subst hd
    rw [DirectoryEntry.role_outside (by rw [g.loses.sharers]; simp)]
    exact g.line
  · have hfits := h.fits d
    have hmem : d∈b'.entry.sharers ↔ d∈b.entry.sharers := by
      rw [g.loses.sharers,Finset.mem_erase]
      exact and_iff_right hd
    rw [g.others d hd]
    refine fits_of_role ?_ rfl hfits
    unfold DirectoryEntry.role
    simp only [hmem]
    split_ifs with hin
    · rfl
    · rcases g.loses.cases h.proper g.sharer with ⟨-,-,hempty⟩ | ⟨hs',hs,-⟩
      · rw [hempty] at hmem
        exact absurd (hmem.mpr hin) (Finset.notMem_empty d)
      · rw [hs',hs,hasks d (hmem.mpr hin)]
    · rfl

theorem Gives.replies (hu : b'.entry.dstate = .uncached) {r : ShmemReq n} (hr : b.queue.head?=some r) :
    r.waitForData=false ∧ r.forwardingFrom=none := by
  have hsharers : b.entry.sharers={c} := by
    rcases g.loses.cases h.proper g.sharer with ⟨-,hsingle,-⟩ | ⟨hs,-⟩
    · exact hsingle
    · rw [hu] at hs
      cases hs
  have hawaited : r.granted=true → r.requester∉b.entry.sharers := by
    intro hgranted hmem
    rw [hsharers,Finset.mem_singleton] at hmem
    apply g.notAwaited
    rw [awaited,hr,Option.bind_some,if_pos hgranted,hmem]
  cases h.waits r hr with
  | data wait sharer fetches =>
    exact absurd sharer (hawaited (by rw [ShmemReq.granted,wait]; rfl))
  | forward f wait forwarding type dstate sharer forwarder other =>
    refine absurd sharer (hawaited ?_)
    rw [ShmemReq.granted,ShmemReq.isForwarding,forwarding]
    exact Bool.or_true _
  | replies wait forwarding => exact ⟨wait,forwarding⟩

theorem Gives.ready_uncached (hu : b'.entry.dstate = .uncached) (cached : Option δ) : b'.Ready cfg cached := by
  have hempty := (g.sound h).proper.uncached.mp hu
  refine ⟨g.sound h,g.fits h fun d hd => ?_,fun r hr => ?_,fun _ => Or.inl hu,fun _ hs => ?_⟩
  · rw [hempty] at hd
    exact absurd hd (Finset.notMem_empty d)
  · rw [g.queue] at hr
    obtain ⟨hwait,hforwarding⟩:=g.replies h hu hr
    refine ⟨hwait,fun hf => ?_⟩
    rw [ShmemReq.isForwarding,hforwarding] at hf
    cases hf
  · rw [hu] at hs
    cases hs

theorem Gives.rests_idle (hqueue : b.queue=[]) : b'.Rests cfg := by
  have hasked : ∀e : DirectoryEntry n,asked e b.queue=fun _ => .nothing := by
    intro e
    rw [hqueue]
    rfl
  refine ⟨g.sound h,?_,fun r hr => ?_,fun hp hs => Or.inl ?_⟩
  · rw [g.queue,hasked]
    exact g.fits h fun d _ => by rw [hasked]
  · rw [g.queue,hqueue] at hr
    cases hr
  · refine g.loses.forwardsShared ?_
    rcases g.loses.cases h.proper g.sharer with ⟨hu,-⟩ | ⟨-,hshared,-⟩
    · rw [hu] at hs
      cases hs
    · rcases h.forwarder hp hshared with hforwards | ⟨-,r,hr,-⟩
      · exact hforwards
      · rw [hqueue] at hr
        cases hr

theorem Gives.forwardsShared (hp : cfg.protocol = .mesif) (hs : b'.entry.dstate = .shared) :
    b'.entry.ForwardsShared := by
  refine g.loses.forwardsShared ?_
  rcases g.loses.cases h.proper g.sharer with ⟨hu,-⟩ | ⟨-,hshared,hne⟩
  · rw [hu] at hs
    cases hs
  · rcases h.forwarder hp hshared with hforwards | ⟨hcard,-⟩
    · exact hforwards
    · obtain ⟨d,hd⟩:=Finset.card_eq_one.mp hcard
      have hdc : c=d := by
        have hc := g.sharer
        rwa [hd,Finset.mem_singleton] at hc
      refine absurd ?_ hne
      rw [g.loses.sharers,hd,hdc,Finset.erase_singleton]

theorem Gives.rests {r : ShmemReq n} (hr : b.queue.head?=some r) (hs : b'.entry.dstate = .shared)
    (hwaits : r.Waits b'.entry) (hupgrade : r.type = .upgradeReq → r.requester≠c) : b'.Rests cfg := by
  have hshared : b.entry.dstate = .shared := by
    rcases g.loses.cases h.proper g.sharer with ⟨hu,-⟩ | ⟨-,hshared,-⟩
    · rw [hu] at hs
      cases hs
    · exact hshared
  refine ⟨g.sound h,g.fits h fun d _ => ?_,fun r' hr' => ?_,fun hp hs => Or.inl (g.forwardsShared h hp hs)⟩
  · rw [g.queue,asked,asked,hr]
    exact ShmemReq.ask_erase hshared hs g.loses.sharers hupgrade d
  · rw [g.queue,hr] at hr'
    cases hr'
    exact hwaits

theorem Gives.ready_shared {r : ShmemReq n} (hr : b.queue.head?=some r)
    (hnothing : ∀d∈b'.entry.sharers,r.ask b.entry d = .nothing) (hwait : r.waitForData=false)
    (hforwarding : r.isForwarding → r.type = .shReq ∧ b'.entry.dstate = .shared ∧ r.requester ∈
    b'.entry.sharers) : b'.Ready cfg none := by
  refine ⟨g.sound h,g.fits h fun d hd => ?_,fun r' hr' => ?_,fun hc => absurd hc Bool.false_ne_true,
    fun hp hs _ => g.forwardsShared h hp hs⟩
  · rw [asked,hr]
    exact (hnothing d hd).symm
  · rw [g.queue,hr] at hr'
    cases hr'
    exact ⟨hwait,hforwarding⟩

end Gives

/-- What a message leaves behind. -/
def Keeps (cfg : DirectoryConfig) (b : Block n δ) (h : Handled n δ) : Prop :=
  h.block.toDram=b.toDram ∧
    match h.work with
    | none => h.block.Rests cfg
    | some cached => h.block.Ready cfg cached ∧ h.block.queue≠[]

/-- If the front request waits for a sharer to make room, the cache is that sharer. -/
def OverflowTied (b : Block n δ) (sender : Fin n) : Prop :=
  ∀r,b.queue.head?=some r → r.type = .shReq → r.granted=false → b.entry.dstate = .shared →
    r.overflow=some sender

section Replies

variable {cfg : DirectoryConfig} {b : Block n δ} {c : Fin n}

theorem sharer_of_role (hout : b.entry.role (asked b.entry b.queue) (awaited b.queue) c ≠ .outside)
    (haw : b.entry.role (asked b.entry b.queue) (awaited b.queue) c ≠ .awaited) :
    c∈b.entry.sharers ∧ awaited b.queue≠some c ∧ b.entry.role (asked b.entry b.queue) (awaited b.queue) c =
        b.entry.dstate.holder (asked b.entry b.queue c) := by
  have hmem : c∈b.entry.sharers := by
    by_contra hmem
    exact hout (DirectoryEntry.role_outside hmem)
  have hne : awaited b.queue≠some c := by
    intro heq
    rw [heq] at haw
    exact haw (DirectoryEntry.role_awaited hmem)
  exact ⟨hmem,hne,DirectoryEntry.role_holder hmem hne⟩

theorem head_outbox {m : DirectoryMsg δ} (hmsg : (b.lines c).toDirectory.head?=some m)
    (q : Option RequestType) : ((b.lines c).shape q).outbox.head?=some m.kind := by
  rw [Line.shape,List.head?_map,hmsg]
  rfl

theorem gives_pop {e : DirectoryEntry n} (hl : b.entry.Loses e c) (hmem : c∈b.entry.sharers)
    (hne : awaited b.queue≠some c)
    (hout : ((b.lines c).shape (queuedRequest b.queue c)).received∈shapes .outside) :
    b.Gives ((b.popMessage c).withEntry e) c := by
  refine ⟨hl,hmem,hne,rfl,?_,fun d hd => ?_⟩
  · change (((b.popMessage c).lines c).shape _)∈_
    rw [popMessage_lines,if_pos rfl,handOver_shape]
    exact hout
  · change (b.popMessage c).lines d=_
    rw [popMessage_lines,if_neg hd]

theorem Rests.upgrader_stays (h : b.Rests cfg) {r : ShmemReq n} (hr : b.queue.head?=some r)
    (ht : r.type = .upgradeReq) (hs : b.entry.dstate = .shared) (hmem : r.requester∈b.entry.sharers)
    (hne : awaited b.queue≠some r.requester) : (b.lines r.requester).toDirectory=[] := by
  have hfits := h.fits r.requester
  have hask : asked b.entry b.queue r.requester = .nothing := by
    simp [asked,hr,ShmemReq.ask,hs,ht]
  obtain ⟨rest,hqueue⟩ : ∃rest,b.queue=r::rest:=List.head?_eq_some_iff.mp hr
  rw [DirectoryEntry.role_holder hmem hne,hask,hs,hqueue,queuedRequest_cons_self (by rw [ht]; decide),
    ht] at hfits
  have hshape : ∀v∈shapes (.sharer .nothing),v.queued=some .upgradeReq → v.outbox=[] := by
    decide +kernel
  exact map_eq_nil_iff.mp (hshape _ hfits rfl)

section

variable {b' : Block n δ} (g : b.Gives b' c) (h : b.Rests cfg)
include g h

theorem Gives.woken_uncached (hu : b'.entry.dstate = .uncached) {r : ShmemReq n} (hr : b.queue.head?=some r) :
    r.wokenBy b'.entry c=true := by
  have hcard : b'.entry.numSharers=0 := by
    rw [DirectoryEntry.numSharers,(g.sound h).proper.uncached.mp hu,Finset.card_empty]
  obtain ⟨hwait,hforwarding⟩:=g.replies h hu hr
  unfold ShmemReq.wokenBy
  cases r.type <;> simp [hu,hcard,hwait,ShmemReq.isForwarding,hforwarding]

theorem Gives.invRep_all (hs' : b'.entry.dstate = .shared) (hs : b.entry.dstate = .shared) {r : ShmemReq n}
    (hr : b.queue.head?=some r) (ht : r.type = .exReq ∨ r.type = .nullifyReq) :
    r.wokenBy b'.entry c=false ∧ b'.Rests cfg := by
  refine ⟨by rcases ht with ht | ht <;> simp [ShmemReq.wokenBy,ht,hs'],?_⟩
  have hup : r.type ≠ .upgradeReq := by rcases ht with ht | ht <;> rw [ht] <;> decide
  have hsh : r.type ≠ .shReq := by rcases ht with ht | ht <;> rw [ht] <;> decide
  refine g.rests h hr hs' ?_ fun hup' => absurd hup' hup
  cases h.waits r hr with
  | data wait sharer fetches =>
    rcases ht with ht | ht <;> rw [ht,hs] at fetches <;> cases fetches
  | forward f wait forwarding type => exact absurd type hsh
  | replies wait forwarding =>
    exact .replies wait forwarding (by rw [hs']; decide) (fun _ hup' => absurd hup' hup)
      fun _ hsh' => absurd hsh' hsh

theorem Gives.invRep_upgrade (hs' : b'.entry.dstate = .shared) (hs : b.entry.dstate = .shared) {r : ShmemReq n}
    (hr : b.queue.head?=some r) (ht : r.type = .upgradeReq) (hstays : r.requester≠c) :
    if r.wokenBy b'.entry c then b'.Ready cfg none else b'.Rests cfg := by
  obtain ⟨wait,forwarding⟩ : r.waitForData=false ∧ r.forwardingFrom=none := by
    cases h.waits r hr with
    | data wait sharer fetches =>
      rw [ht,hs] at fetches
      cases fetches
    | forward f wait forwarding type =>
      rw [ht] at type
      cases type
    | replies wait forwarding => exact ⟨wait,forwarding⟩
  have hne : b'.entry.numSharers≠0 := by
    intro hcard
    have hu := (g.sound h).proper.uncached.mpr (Finset.card_eq_zero.mp hcard)
    rw [hs'] at hu
    cases hu
  have hwoken : r.wokenBy b'.entry c=true ↔ b'.entry.sharers={r.requester} := by
    simp only [ShmemReq.wokenBy,ht,decide_eq_true_eq,hne,or_false]
    constructor
    · rintro ⟨hcard,hmem⟩
      obtain ⟨d,hd⟩:=Finset.card_eq_one.mp hcard
      rw [hd,Finset.mem_singleton] at hmem
      rw [hd,hmem]
    · intro heq
      rw [DirectoryEntry.numSharers,heq]
      exact ⟨Finset.card_singleton _,Finset.mem_singleton_self _⟩
  split_ifs with hw
  · refine g.ready_shared h hr (fun d hd => ?_) wait fun hf => ?_
    · rw [hwoken.mp hw,Finset.mem_singleton] at hd
      simp [ShmemReq.ask,hs,ht,hd]
    · rw [ShmemReq.isForwarding,forwarding] at hf
      cases hf
  · refine g.rests h hr hs' ?_ fun _ => hstays
    refine .replies wait forwarding (by rw [hs']; decide) (fun _ _ heq => hw (hwoken.mpr heq))
      fun _ hsh => ?_
    rw [ht] at hsh
    cases hsh

theorem Gives.invRep_share (hs' : b'.entry.dstate = .shared) (hs : b.entry.dstate = .shared) {r : ShmemReq n}
    (hr : b.queue.head?=some r) (ht : r.type = .shReq) (htied : b.OverflowTied c) :
    if r.wokenBy b'.entry c then b'.Ready cfg none else b'.Rests cfg := by
  have hup : r.type ≠ .upgradeReq := by rw [ht]; decide
  have hstays : r.granted=true → r.requester∈b.entry.sharers →
      r.requester∈b'.entry.sharers := by
    intro hgranted hmem
    rw [g.loses.sharers,Finset.mem_erase]
    refine ⟨fun heq => g.notAwaited ?_,hmem⟩
    rw [awaited,hr,Option.bind_some,if_pos hgranted,heq]
  cases h.waits r hr with
  | data wait sharer fetches =>
    have hw : ¬ r.wokenBy b'.entry c=true := by simp [ShmemReq.wokenBy,ht,wait]
    rw [if_neg hw]
    refine g.rests h hr hs' ?_ fun hup' => absurd hup' hup
    refine .data wait (hstays (by rw [ShmemReq.granted,wait]; rfl) sharer) ?_
    rw [ht]
    exact Or.inl hs'
  | forward f wait forwarding type dstate sharer forwarder other =>
    have hgranted : r.granted=true := by simp [ShmemReq.granted,ShmemReq.isForwarding,forwarding]
    by_cases hf : f=c
    · have hw : r.wokenBy b'.entry c=true := by
        simp [ShmemReq.wokenBy,ht,wait,forwarding,hf]
      rw [if_pos hw]
      refine g.ready_shared h hr (fun d hd => ?_) wait fun _ => ⟨ht,hs',hstays hgranted sharer⟩
      rw [g.loses.sharers,Finset.mem_erase] at hd
      rw [ShmemReq.ask_forward hs ht wait forwarding,if_neg]
      rintro rfl
      exact hd.1 hf
    · have hw : ¬ r.wokenBy b'.entry c=true := by
        simp [ShmemReq.wokenBy,ht,wait,forwarding,hf,ShmemReq.isForwarding]
      rw [if_neg hw]
      refine g.rests h hr hs' ?_ fun hup' => absurd hup' hup
      refine .forward f wait forwarding ht hs' (hstays hgranted sharer) ?_ other
      rw [g.loses.sharers,Finset.mem_erase]
      exact ⟨hf,forwarder⟩
  | replies wait forwarding cached upgrade overflow =>
    have hgranted : r.granted=false := by
      simp [ShmemReq.granted,ShmemReq.isForwarding,wait,forwarding]
    have hw : r.wokenBy b'.entry c=true := by
      simp [ShmemReq.wokenBy,ht,wait,forwarding,ShmemReq.isForwarding]
    rw [if_pos hw]
    refine g.ready_shared h hr (fun d hd => ?_) wait fun hf => ?_
    · have hvictim := htied r hr ht hgranted hs
      rw [g.loses.sharers,Finset.mem_erase] at hd
      simp [ShmemReq.ask,hs,ht,wait,ShmemReq.isForwarding,forwarding,hvictim,Ne.symm hd.1]
    · rw [ShmemReq.isForwarding,forwarding] at hf
      cases hf

theorem Gives.invRep (hmsg : (b.lines c).toDirectory≠[]) (htied : b.OverflowTied c) {r : ShmemReq n}
    (hr : b.queue.head?=some r) :
    if r.wokenBy b'.entry c then b'.Ready cfg none else b'.Rests cfg := by
  rcases g.loses.cases h.proper g.sharer with ⟨hu,-⟩ | ⟨hs',hs,-⟩
  · rw [if_pos (g.woken_uncached h hu hr)]
    exact g.ready_uncached h hu none
  · have hall : r.type = .exReq ∨ r.type = .nullifyReq →
        if r.wokenBy b'.entry c then b'.Ready cfg none else b'.Rests cfg := by
      intro ht
      obtain ⟨hw,hrests⟩:=g.invRep_all h hs' hs hr ht
      rw [hw,if_neg Bool.false_ne_true]
      exact hrests
    cases ht : r.type with
    | exReq => exact hall (Or.inl ht)
    | nullifyReq => exact hall (Or.inr ht)
    | upgradeReq =>
      refine g.invRep_upgrade h hs' hs hr ht ?_
      rintro rfl
      exact hmsg (h.upgrader_stays hr ht hs g.sharer g.notAwaited)
    | shReq => exact g.invRep_share h hs' hs hr ht htied

end

theorem processInvRep_ok (hstate : b.entry.dstate = .shared ∨ b.entry.dstate = .exclusive)
    (hmem : c∈b.entry.sharers) :
    ∃e,b.entry.Loses e c ∧ b.processInvRepFromL2Cache c =
      .ok ⟨b.withEntry e,none,if b.queue.head?.any (·.wokenBy e c) then some none else none⟩ := by
  refine ⟨_,b.entry.loses_invRep c,?_⟩
  rw [processInvRepFromL2Cache,if_pos hstate,DirectoryEntry.removeSharer,if_pos hmem,ok_bind]

theorem Rests.invRep (h : b.Rests cfg) (hmsg : (b.lines c).toDirectory.head?=some .invRep)
    (htied : b.OverflowTied c) :
    ∃handled,(b.popMessage c).processInvRepFromL2Cache c = .ok handled ∧ Keeps cfg b handled := by
  obtain ⟨hout,houtside,hawaited,howner⟩:=movesShapes.invRep _ _ (h.fits c) (head_outbox hmsg _)
  obtain ⟨hmem,hne,hrole⟩:=sharer_of_role houtside hawaited
  have hstate : b.entry.dstate = .shared ∨ b.entry.dstate = .exclusive := by
    cases hd : b.entry.dstate with
    | uncached => exact absurd hd (h.proper.dstate_ne hmem)
    | shared => exact Or.inl rfl
    | exclusive => exact Or.inr rfl
    | modified =>
      rw [hrole,hd] at howner
      exact absurd rfl (howner _)
  obtain ⟨e,hl,hok⟩:=processInvRep_ok (b:=b.popMessage c) hstate hmem
  have g := gives_pop (b:=b) hl hmem hne hout
  refine ⟨_,hok,rfl,?_⟩
  cases hr : b.queue.head? with
  | none =>
    have hr' : (b.popMessage c).queue.head?=none := hr
    rw [hr']
    exact g.rests_idle h (List.head?_eq_none_iff.mp hr)
  | some r =>
    have hr' : (b.popMessage c).queue.head?=some r := hr
    have hmsg' : (b.lines c).toDirectory≠[] := fun hnil => by rw [hnil] at hmsg; cases hmsg
    have hcases := g.invRep h hmsg' htied hr
    rw [hr',Option.any_some]
    split_ifs at hcases with hw
    · rw [if_pos (show r.wokenBy e c=true from hw)]
      exact ⟨hcases,fun hnil => by rw [show b.queue=[] from hnil] at hr; cases hr⟩
    · rw [if_neg (show ¬ r.wokenBy e c=true from hw)]
      exact hcases

theorem Rests.saveData (h : b.Rests cfg) {r : ShmemReq n} {rest : List (ShmemReq n)}
    (hqueue : b.queue=r::rest) :
    ({b with queue:={r with savedData:=true}::rest} : Block n δ).Rests cfg := by
  have hdistinct := h.distinct
  have hfresh := h.fresh
  have hfits := h.fits
  have hwaits := h.waits r (by rw [hqueue]; rfl)
  have hforwarder := h.forwarder
  rw [hqueue] at hdistinct hfresh
  refine ⟨⟨h.proper,hdistinct.congr rfl rfl,hfresh⟩,fun c => ?_,fun r' hr' => ?_,fun hp hs => ?_⟩
  · have hline := hfits c
    rw [hqueue] at hline
    exact hline
  · cases hr'
    cases hwaits with
    | data wait sharer fetches => exact .data wait sharer fetches
    | forward f wait forwarding type dstate sharer forwarder other =>
      exact .forward f wait forwarding type dstate sharer forwarder other
    | replies wait forwarding cached upgrade overflow =>
      exact .replies wait forwarding cached upgrade overflow
  · refine (hforwarder hp hs).imp_right fun ⟨hcard,r',hr',ht,hg⟩ => ⟨hcard,_,rfl,?_⟩
    rw [hqueue] at hr'
    cases hr'
    exact ⟨ht,hg⟩

theorem processFlushRep_ok (hmem : c∈b.entry.sharers)
    (hs : b.entry.sharers.erase c = ∅ ∨ b.entry.dstate = .shared) (data : δ) :
    ∃e,b.entry.Loses e c ∧ b.processFlushRepFromL2Cache c data = .ok (b.flushed data e) := by
  refine ⟨_,b.entry.loses_flushRep c,?_⟩
  rw [processFlushRepFromL2Cache,DirectoryEntry.removeSharer,if_pos hmem,ok_bind]
  exact if_pos (hs.imp_left Finset.card_eq_zero.mpr)

theorem flushed_upgrade {r : ShmemReq n} {rest : List (ShmemReq n)} {e : DirectoryEntry n}
    (hqueue : b.queue=r::rest) (ht : r.type = .upgradeReq) (hcard : e.numSharers≠0) (data : δ) :
    b.flushed data e =
      ⟨{b.withEntry e with queue:={r with savedData:=true}::rest},none,none⟩ := by
  simp only [flushed,hqueue,ht,if_neg hcard]

theorem ask_data {r : ShmemReq n} {e : DirectoryEntry n} (hs : e.dstate = .shared) (h : r.ask e c = .data) :
    r.type = .upgradeReq ∧ r.requester≠c ∧ r.requester∉e.sharers := by
  unfold ShmemReq.ask at h
  rw [hs] at h
  cases ht : r.type with
  | upgradeReq =>
    simp only [ht] at h
    split_ifs at h with hself hmem
    exact ⟨rfl,Ne.symm hself,hmem⟩
  | shReq =>
    simp only [ht] at h
    split_ifs at h
  | exReq | nullifyReq =>
    simp only [ht] at h
    cases h

theorem Rests.flushRep (h : b.Rests cfg) {data : δ}
    (hmsg : (b.lines c).toDirectory.head?=some (.flushRep data)) :
    ∃handled,(b.popMessage c).processFlushRepFromL2Cache c data = .ok handled ∧ Keeps cfg b handled := by
  obtain ⟨hout,houtside,hawaited,hdata⟩:=movesShapes.flushRep _ _ (h.fits c) (head_outbox hmsg _)
  obtain ⟨hmem,hne,hrole⟩:=sharer_of_role houtside hawaited
  have hs : b.entry.sharers.erase c = ∅ ∨ b.entry.dstate = .shared := by
    by_cases hempty : b.entry.sharers.erase c = ∅
    · exact Or.inl hempty
    · exact Or.inr (h.proper.shared_of_erase hmem hempty)
  obtain ⟨e,hl,hok⟩:=processFlushRep_ok (b:=b.popMessage c) hmem hs data
  have g := gives_pop (b:=b) hl hmem hne hout
  refine ⟨_,hok,?_⟩
  cases hqueue : b.queue with
  | nil =>
    rw [flushed,show (b.popMessage c).queue=[] from hqueue]
    exact ⟨rfl,g.rests_idle h hqueue⟩
  | cons r rest =>
    have hr : b.queue.head?=some r := by rw [hqueue]; rfl
    have hqueue' : (b.popMessage c).queue=r::rest := hqueue
    rcases g.loses.cases h.proper hmem with ⟨hu,-,hempty⟩ | ⟨hs',hs,hnonempty⟩
    · have hcard : e.numSharers=0 := Finset.card_eq_zero.mpr hempty
      have hready := g.ready_uncached h hu
      have hnil : ((b.popMessage c).withEntry e).queue≠[] := by
        rw [show ((b.popMessage c).withEntry e).queue=r::rest from hqueue]
        exact cons_ne_nil _ _
      rw [flushed,hqueue']
      cases ht : r.type with
      | upgradeReq =>
        simp only [ht,if_pos hcard]
        exact ⟨rfl,hready _,hnil⟩
      | exReq | shReq | nullifyReq =>
        simp only [ht]
        exact ⟨rfl,hready _,hnil⟩
    · have hcard : e.numSharers≠0 := fun hcard => hnonempty (Finset.card_eq_zero.mp hcard)
      have hask : r.ask b.entry c = .data := by
        rw [hrole,hs,asked,hr] at hdata
        exact hdata _ rfl
      obtain ⟨ht,hrequester,hlost⟩:=ask_data hs hask
      have hwaits : r.Waits ((b.popMessage c).withEntry e).entry := by
        cases h.waits r hr with
        | data wait sharer fetches => exact absurd sharer hlost
        | forward f wait forwarding type dstate sharer => exact absurd sharer hlost
        | replies wait forwarding =>
          refine .replies wait forwarding (by rw [hs']; decide) (fun _ _ heq => ?_) fun _ hsh => ?_
          · have hself : r.requester∈((b.popMessage c).withEntry e).entry.sharers := by
              rw [heq]
              exact Finset.mem_singleton_self _
            rw [g.loses.sharers] at hself
            exact hlost (Finset.mem_of_mem_erase hself)
          · rw [ht] at hsh
            cases hsh
      have hrests := g.rests h hr hs' hwaits fun _ => hrequester
      rw [flushed_upgrade hqueue' ht hcard]
      exact ⟨rfl,hrests.saveData hqueue⟩

theorem ask_share {r : ShmemReq n} {e : DirectoryEntry n} (h : r.ask e c = .share) :
    r.type = .shReq ∧ (e.dstate = .shared → r.waitForData=false ∧ r.forwardingFrom=some c) := by
  unfold ShmemReq.ask at h
  cases hs : e.dstate with
  | uncached =>
    rw [hs] at h
    cases h
  | exclusive | modified =>
    rw [hs] at h
    dsimp only at h
    split_ifs at h with ht
    exact ⟨ht,fun h => by cases h⟩
  | shared =>
    rw [hs] at h
    cases ht : r.type with
    | shReq =>
      simp only [ht] at h
      split_ifs at h with hwait hforwarding hc
      exact ⟨rfl,fun _ => ⟨Bool.eq_false_of_not_eq_true hwait,hc⟩⟩
    | upgradeReq =>
      simp only [ht] at h
      split_ifs at h
    | exReq | nullifyReq =>
      simp only [ht] at h
      cases h

/-- The read that a cache is asked to share for. -/
structure Shares (b : Block n δ) (c : Fin n) (r : ShmemReq n) : Prop where
  front : b.queue.head?=some r
  sharer : c∈b.entry.sharers
  notAwaited : awaited b.queue≠some c
  type : r.type = .shReq
  wait : r.waitForData=false
  forwarding : r.isForwarding → b.entry.dstate = .shared ∧ r.requester∈b.entry.sharers
  forwarder : b.entry.dstate = .shared → r.forwardingFrom=some c

theorem Rests.shares (h : b.Rests cfg)
    (hshare : b.entry.role (asked b.entry b.queue) (awaited b.queue) c = .sharer .share ∨
      ∃m,b.entry.role (asked b.entry b.queue) (awaited b.queue) c = .owner m .share) : ∃r,b.Shares c r := by
  obtain ⟨hmem,hne,hrole⟩ : c∈b.entry.sharers ∧ awaited b.queue≠some c ∧
      b.entry.role (asked b.entry b.queue) (awaited b.queue) c =
        b.entry.dstate.holder (asked b.entry b.queue c) := by
    refine sharer_of_role ?_ ?_ <;> rcases hshare with hr | ⟨m,hr⟩ <;> rw [hr] <;> simp
  have hask : asked b.entry b.queue c = .share := by
    rw [hrole] at hshare
    cases hs : b.entry.dstate with
    | uncached => exact absurd hs (h.proper.dstate_ne hmem)
    | _ => simpa [hs,DirectoryState.holder] using hshare
  cases hr : b.queue.head? with
  | none =>
    rw [asked,hr] at hask
    cases hask
  | some r =>
    rw [asked,hr] at hask
    obtain ⟨ht,hforward⟩:=ask_share hask
    cases h.waits r hr with
    | data wait sharer fetches =>
      by_cases hs : b.entry.dstate = .shared
      · rw [(hforward hs).1] at wait
        cases wait
      · have hself := h.proper.eq_of_owned hs sharer hmem
        refine absurd ?_ hne
        rw [awaited,hr,Option.bind_some,ShmemReq.granted,wait,hself]
        rfl
    | forward f wait forwarding type dstate sharer =>
      exact ⟨r,hr,hmem,hne,ht,wait,fun _ => ⟨dstate,sharer⟩,fun hs => (hforward hs).2⟩
    | replies wait forwarding =>
      refine ⟨r,hr,hmem,hne,ht,wait,fun hf => ?_,fun hs => (hforward hs).2⟩
      rw [ShmemReq.isForwarding,forwarding] at hf
      cases hf

theorem Shares.others {r : ShmemReq n} (hshares : b.Shares c r) (h : b.Rests cfg) {d : Fin n} (hd : d≠c)
    (hmem : d∈b.entry.sharers) : b.entry.dstate = .shared ∧ asked b.entry b.queue d = .nothing := by
  have hs : b.entry.dstate = .shared := by
    by_contra hs
    exact hd (h.proper.eq_of_owned hs hmem hshares.sharer)
  refine ⟨hs,?_⟩
  rw [asked,hshares.front]
  dsimp only
  rw [ShmemReq.ask_forward hs hshares.type hshares.wait (hshares.forwarder hs),if_neg (Ne.symm hd)]

variable (h : b.Rests cfg)
include h

theorem Rests.wbRep {data : δ} (hmsg : (b.lines c).toDirectory.head?=some (.wbRep data)) :
    ∃handled,(b.popMessage c).processWbRepFromL2Cache c data = .ok handled ∧ Keeps cfg b handled := by
  obtain ⟨hshape,hshare⟩:=movesShapes.wbRep _ _ (h.fits c) (head_outbox hmsg _)
  obtain ⟨r,hshares⟩:=h.shares hshare
  obtain ⟨rest,hqueue⟩ : ∃rest,b.queue=r::rest:=List.head?_eq_some_iff.mp hshares.front
  have hok : (b.popMessage c).processWbRepFromL2Cache c data = .ok ⟨(b.popMessage c).withEntry
      {b.entry with owner:=none,dstate:=.shared},none,some (some data)⟩ := by
    rw [processWbRepFromL2Cache,if_pos (show c∈(b.popMessage c).entry.sharers from hshares.sharer),
      show (b.popMessage c).queue=r::rest from hqueue]
    exact if_pos hshares.type
  refine ⟨_,hok,rfl,⟨⟨h.proper.writtenBack hshares.sharer,h.distinct,h.fresh⟩,fun d => ?_,fun r' hr' => ?_,
    fun _ => Or.inr ⟨rfl,fun r' hr' => ?_⟩,fun _ _ hc => by cases hc⟩,?_⟩
  · change ((b.popMessage c).lines d).shape (queuedRequest b.queue d)∈shapes
      (DirectoryEntry.role {b.entry with owner:=none,dstate:=.shared} (fun _ => .nothing)
        (awaited b.queue) d)
    rw [popMessage_lines]
    by_cases hd : d=c
    · subst hd
      rw [if_pos rfl,handOver_shape,DirectoryEntry.role_holder (by exact hshares.sharer)
        hshares.notAwaited]
      exact hshape
    · rw [if_neg hd]
      refine fits_of_role ?_ rfl (h.fits d)
      unfold DirectoryEntry.role
      dsimp only
      split_ifs with hmem hawaited
      · rfl
      · obtain ⟨hs,hnothing⟩:=hshares.others h hd hmem
        rw [hs,hnothing]
      · rfl
  · obtain rfl : r=r':=Option.some.inj (hshares.front.symm.trans hr')
    exact ⟨hshares.wait,fun hf => ⟨hshares.type,rfl,(hshares.forwarding hf).2⟩⟩
  · obtain rfl : r=r':=Option.some.inj (hshares.front.symm.trans hr')
    refine ⟨hshares.type,?_⟩
    by_cases hs : b.entry.dstate = .shared
    · rw [ShmemReq.isForwarding,hshares.forwarder hs]
      exact Or.inl rfl
    · refine Or.inr (Finset.card_eq_one.mpr ⟨c,?_⟩)
      exact Finset.eq_singleton_iff_unique_mem.mpr
        ⟨hshares.sharer,fun d hd => h.proper.eq_of_owned hs hd hshares.sharer⟩
  · rw [show ((b.popMessage c).withEntry _).queue=r::rest from hqueue]
    exact cons_ne_nil _ _

theorem Rests.request {m : DirectoryMsg δ} {type : RequestType}
    (ht : type ≠ .nullifyReq)
    (hmoves : ∀r,∀v∈shapes r,v.outbox.head?=some m.kind →
      v.queued=none ∧ {v.received with queued:=some type}∈shapes r)
    (hmsg : (b.lines c).toDirectory.head?=some m) :
    Keeps cfg b ((b.popMessage c).enqueue (.new type c)) := by
  have hself : queuedRequest b.queue c=none := (hmoves _ _ (h.fits c) (head_outbox hmsg _)).1
  have hfits : ∀asks,(∀d,asks d=asked b.entry b.queue d) →
      awaited (b.queue++[ShmemReq.new type c])=awaited b.queue →
      ({b.popMessage c with queue:=b.queue++[.new type c]} : Block n δ).Fits asks := by
    intro asks hasks hawaited d
    obtain rfl : asks=asked b.entry b.queue:=funext hasks
    change ((b.popMessage c).lines d).shape (queuedRequest (b.queue++[.new type c]) d)∈shapes
      (b.entry.role (asked b.entry b.queue) (awaited (b.queue++[.new type c])) d)
    rw [hawaited,popMessage_lines,queuedRequest_append ht hself]
    by_cases hd : d=c
    · subst hd
      rw [if_pos rfl,if_pos rfl]
      have hmoved := (hmoves _ _ (h.fits d) (head_outbox hmsg _)).2
      have hshape : (b.lines d).handOver.shape (some type) =
          {((b.lines d).shape (queuedRequest b.queue d)).received with queued:=some type} := by
        rw [← handOver_shape]
        rfl
      rw [hshape]
      exact hmoved
    · rw [if_neg hd,if_neg (Ne.symm hd)]
      exact h.fits d
  have hdistinct : Distinct (b.queue++[ShmemReq.new type c]) := h.distinct.append hself
  unfold enqueue
  rw [show (b.popMessage c).queue=b.queue from rfl]
  cases hqueue : b.queue with
  | nil =>
    rw [hqueue] at hfits hdistinct
    refine ⟨rfl,⟨⟨h.proper,hdistinct,fun r hr => by cases hr⟩,hfits _ (fun _ => rfl) rfl,fun r hr => ?_,
      fun hc => absurd hc Bool.false_ne_true,fun hp hs _ => ?_⟩,cons_ne_nil _ _⟩
    · cases hr
      exact ⟨rfl,fun hf => absurd hf Bool.false_ne_true⟩
    · rcases h.forwarder hp hs with hforwards | ⟨-,r,hr,-⟩
      · exact hforwards
      · rw [hqueue] at hr
        cases hr
  | cons r rest =>
    have hhead : b.queue.head?=some r := by rw [hqueue]; rfl
    have hfresh := h.fresh
    have hforwarder := h.forwarder
    rw [hqueue] at hfits hdistinct hfresh hforwarder
    refine ⟨rfl,⟨⟨h.proper,hdistinct,fun r' hr' => ?_⟩,hfits _ (fun _ => rfl) rfl,fun r' hr' => ?_,hforwarder⟩⟩
    · rw [show (r::rest++[ShmemReq.new type c]).tail=rest++[.new type c] from rfl] at hr'
      rcases mem_append.mp hr' with hr' | hr'
      · exact hfresh r' hr'
      · rw [mem_singleton.mp hr']
        exact ⟨rfl,ht⟩
    · cases hr'
      exact h.waits r hhead

theorem Rests.dramReply {r : ShmemReq n} {rest : List (ShmemReq n)}
    (hqueue : b.queue=r::rest) (hwait : r.waitForData=true) (data : δ) :
    ∃b',b.processDRAMReply data = .ok b' ∧ b'.toDram=b.toDram ∧ b'.queue=b.queue ∧
      {b' with queue:=rest}.Settled cfg := by
  have hr : b.queue.head?=some r := by rw [hqueue]; rfl
  obtain ⟨sharer,fetches⟩ : r.requester∈b.entry.sharers ∧ ShmemReq.Fetches b.entry.dstate r.type := by
    cases h.waits r hr with
    | data wait sharer fetches => exact ⟨sharer,fetches⟩
    | forward f wait =>
      rw [hwait] at wait
      cases wait
    | replies wait =>
      rw [hwait] at wait
      cases wait
  have hgranted : r.granted=true := by rw [ShmemReq.granted,hwait]; rfl
  obtain ⟨m,hreplies,hok⟩ : ∃m : CacheMsg δ,Replies b.entry.dstate r.type m.kind ∧
      b.processDRAMReply data = .ok (b.send r.requester m) := by
    rw [processDRAMReply,hqueue]
    cases ht : r.type with
    | shReq =>
      rw [ht] at fetches
      rcases fetches with hs | hs <;> simp only [ht,hs]
      · exact ⟨.shRep data,.shared,rfl⟩
      · exact ⟨.exRep data,.exclusive,rfl⟩
    | exReq =>
      rw [ht] at fetches
      simp only [ht,show b.entry.dstate = .modified from fetches]
      exact ⟨.exRep data,.fetch,rfl⟩
    | upgradeReq =>
      rw [ht] at fetches
      simp only [ht,show b.entry.dstate = .modified from fetches]
      exact ⟨.exRep data,.upgrade,rfl⟩
    | nullifyReq =>
      rw [ht] at fetches
      exact fetches.elim
  have hdistinct := h.distinct
  have hfresh := h.fresh
  rw [hqueue] at hdistinct hfresh
  have hawaited : awaited (r::rest)=some r.requester := by
    rw [awaited_cons,if_pos hgranted]
  refine ⟨_,hok,rfl,rfl,h.proper,(pairwise_cons.mp hdistinct).2,hfresh,fun c => ?_,fun hp hs => ?_⟩
  · rw [awaited_fresh (by exact hfresh)]
    change ((b.send r.requester m).lines c).shape (queuedRequest rest c) ∈
      shapes (b.entry.role (fun _ => .nothing) none c)
    have hline := h.fits c
    rw [hqueue,hawaited] at hline
    rw [send_lines]
    by_cases hc : c=r.requester
    · subst hc
      rw [DirectoryEntry.role_awaited sharer,queuedRequest_cons_self hreplies.ne_nullify] at hline
      rw [if_pos rfl,hdistinct.queuedRequest_rest hreplies.ne_nullify,Line.answer_shape _ (some r.type),
        DirectoryEntry.role_holder sharer (by simp)]
      exact hreplies.answer (movesShapes.awaited _ hline) rfl
    · rw [queuedRequest_cons_of_ne (Ne.symm hc)] at hline
      rw [if_neg hc]
      refine fits_of_role (DirectoryEntry.role_congr (by simp) ?_ fun hmem => ?_) rfl hline
      · simpa using Ne.symm hc
      · have hs : b.entry.dstate = .shared := by
          by_contra hs
          exact hc (h.proper.eq_of_owned hs hmem sharer)
        exact (ShmemReq.ask_wait hs (hreplies.type_of_shared hs) hwait).symm
  · rcases h.forwarder hp hs with hforwards | ⟨-,r',hr',-,hg⟩
    · exact hforwards
    · rw [hr] at hr'
      cases hr'
      rw [hgranted] at hg
      cases hg

theorem Rests.updateLine {l : Line δ}
    (hl : l.shape (queuedRequest b.queue c) ∈
      shapes (b.entry.role (asked b.entry b.queue) (awaited b.queue) c)) :
    ({b with lines:=update b.lines c l} : Block n δ).Rests cfg := by
  refine ⟨⟨h.proper,h.distinct,h.fresh⟩,fun d => ?_,h.waits,h.forwarder⟩
  by_cases hd : d=c
  · subst hd
    change (update b.lines d l d).shape _∈_
    rw [update_self]
    exact hl
  · change (update b.lines c l d).shape _∈_
    rw [update_of_ne hd]
    exact h.fits d

theorem Rests.access (exclusive : Bool) :
    ∃l,(b.lines c).access exclusive = .ok l ∧
      ({b with lines:=update b.lines c l} : Block n δ).Rests cfg := by
  have hfits := h.fits c
  obtain ⟨l,hok,hshape⟩:=(b.lines c).access_shape (queuedRequest b.queue c) exclusive
    fun hnil => keepsShapes.unwanted _ _ hfits (by rw [Line.shape,hnil]; rfl)
  refine ⟨l,hok,h.updateLine ?_⟩
  rw [hshape]
  exact keepsShapes.access _ _ hfits exclusive

theorem Rests.store (data : δ) :
    ({b with lines:=update b.lines c ((b.lines c).store data)} : Block n δ).Rests cfg := by
  refine h.updateLine ?_
  rw [Line.store_shape]
  exact keepsShapes.store _ _ (h.fits c)

theorem Rests.evict :
    ({b with lines:=update b.lines c (b.lines c).evict} : Block n δ).Rests cfg := by
  refine h.updateLine ?_
  rw [Line.evict_shape]
  exact keepsShapes.evict _ _ (h.fits c)

theorem Rests.deliver (stack : δ) :
    ∃l,(b.lines c).deliver stack = .ok l ∧
      ({b with lines:=update b.lines c l} : Block n δ).Rests cfg := by
  obtain ⟨hdeliverable,hdeliver⟩:=keepsShapes.deliver _ _ (h.fits c)
  obtain ⟨l,hok,hshape⟩:=Line.deliver_shape hdeliverable stack
  refine ⟨l,hok,h.updateLine ?_⟩
  rcases hshape with hshape | hshape
  · rw [hshape]
    exact h.fits c
  · exact hdeliver _ hshape

/-- The next message of a cache is handled without a failed assertion. -/
theorem Rests.handleMsg {m : DirectoryMsg δ} (hmsg : (b.lines c).toDirectory.head?=some m)
    (htied : m = .invRep → b.OverflowTied c) :
    ∃handled,(b.popMessage c).handleMsgFromL2Cache c m = .ok handled ∧ Keeps cfg b handled := by
  cases m with
  | exReq => exact ⟨_,rfl,h.request (m:=.exReq) (by decide) movesShapes.exReq hmsg⟩
  | shReq => exact ⟨_,rfl,h.request (m:=.shReq) (by decide) movesShapes.shReq hmsg⟩
  | upgradeReq => exact ⟨_,rfl,h.request (m:=.upgradeReq) (by decide) movesShapes.upgradeReq hmsg⟩
  | invRep => exact h.invRep hmsg (htied rfl)
  | flushRep data => exact h.flushRep hmsg
  | wbRep data => exact h.wbRep hmsg

end Replies

end Block

end Sniper.Coherence
