import Sniper.BlockInvariant

/-!
# The work on the request at the front

From a block that is ready, the work on the front request succeeds: no assertion fails. It
either answers the request or leaves it waiting, with the caches asked for what it needs.
-/

namespace Sniper.Coherence
open FallibleRuns DirectoryEntry List

variable {n : ℕ} {δ : Type}

section Roles

variable {e : DirectoryEntry n} {asks : Fin n → Ask} {aw : Option (Fin n)} {c : Fin n}

theorem DirectoryEntry.role_outside (h : c∉e.sharers) : e.role asks aw c = .outside := if_neg h

theorem DirectoryEntry.role_awaited (h : c∈e.sharers) : e.role asks (some c) c = .awaited := by
  rw [role,if_pos h,if_pos rfl]

theorem DirectoryEntry.role_holder (h : c∈e.sharers) (haw : aw≠some c) :
    e.role asks aw c=e.dstate.holder (asks c) := by
  rw [role,if_pos h,if_neg haw]

theorem DirectoryEntry.role_congr {asks' : Fin n → Ask} {aw' : Option (Fin n)} (haw : aw≠some c)
    (haw' : aw'≠some c) (h : c∈e.sharers → asks c=asks' c) : e.role asks aw c=e.role asks' aw' c := by
  by_cases hc : c∈e.sharers
  · rw [role_holder hc haw,role_holder hc haw',h hc]
  · rw [role_outside hc,role_outside hc]

theorem DirectoryEntry.Proper.eq_of_owned {maxHwSharers : ℕ} (he : e.Proper maxHwSharers)
    (hs : e.dstate ≠ .shared) {d : Fin n} (hc : c∈e.sharers) (hd : d∈e.sharers) : c=d := by
  cases hstate : e.dstate with
  | uncached => exact absurd (he.uncached.mp hstate ▸ hc) (Finset.notMem_empty c)
  | shared => exact absurd hstate hs
  | exclusive | modified =>
    obtain ⟨o,-,ho⟩:=he.owned (by rw [hstate]; simp)
    rw [ho,Finset.mem_singleton] at hc hd
    exact hc.trans hd.symm

theorem DirectoryEntry.Proper.dstate_ne {maxHwSharers : ℕ} (he : e.Proper maxHwSharers) (h : c∈e.sharers) :
    e.dstate ≠ .uncached := fun hu => by
  rw [he.uncached.mp hu] at h
  exact absurd h (Finset.notMem_empty c)

end Roles

variable {s : DirectoryState} {m : CacheMsg Unit} {type : RequestType}

theorem DirectoryState.holder_inside (h : s ≠ .uncached) (ask : Ask) :
    s.holder ask ≠ .outside ∧ s.holder ask ≠ .awaited := by
  cases s <;> simp_all [holder]

def unread (messages : List (DramMsg δ)) : ℕ := messages.countP fun m => m matches .readReq

/-- The number of reads that the front request waits for. -/
def awaitedReads (queue : List (ShmemReq n)) : ℕ := if queue.head?.any ShmemReq.waitForData then 1 else 0

/-- The request and the reply that make a cache a sharer in this state of the directory. -/
inductive Replies : DirectoryState → RequestType → CacheMsg Unit → Prop where
  | fetch : Replies .modified .exReq (.exRep ())
  | upgrade : Replies .modified .upgradeReq (.exRep ())
  | exclusive : Replies .exclusive .shReq (.exRep ())
  | shared : Replies .shared .shReq (.shRep ())

theorem Replies.ne_nullify (h : Replies s type m) : type ≠ .nullifyReq := by
  cases h <;> decide

theorem Replies.type_of_shared (h : Replies s type m) (hs : s = .shared) : type = .shReq := by
  cases h <;> first | rfl | cases hs

theorem Replies.fetches (h : Replies s type m) : ShmemReq.Fetches s type := by
  cases h with
  | fetch | upgrade => rfl
  | exclusive => exact Or.inr rfl
  | shared => exact Or.inl rfl

theorem ShmemReq.ask_wait {r : ShmemReq n} {e : DirectoryEntry n} {c : Fin n} (hs : e.dstate = .shared)
    (ht : r.type = .shReq) (hw : r.waitForData=true) : r.ask e c = .nothing := by
  simp [ask,hs,ht,hw]

theorem ShmemReq.ask_forward {r : ShmemReq n} {e : DirectoryEntry n} {c d : Fin n}
    (hs : e.dstate = .shared) (ht : r.type = .shReq) (hw : r.waitForData=false)
    (hf : r.forwardingFrom=some d) : r.ask e c=if d=c then .share else .nothing := by
  simp [ask,hs,ht,hw,hf,isForwarding]

theorem Replies.answer {v : Shape} (h : Replies s type m) (hv : v∈shapes .outside) (hq : v.queued=some type) :
    v.answer m∈shapes (s.holder .nothing) := by
  cases h with
  | fetch => exact movesShapes.answerExclusive v hv (Or.inl hq)
  | upgrade => exact movesShapes.answerExclusive v hv (Or.inr hq)
  | exclusive => exact (movesShapes.answerShared v hv hq).1
  | shared => exact (movesShapes.answerShared v hv hq).2

theorem Line.answer_shape (l : Line δ) (q : Option RequestType) (m : CacheMsg δ) :
    (l.receive m).shape none=(l.shape q).answer m.kind :=
  l.receive_shape none m

theorem fits_of_role {l : Line δ} {q q' : Option RequestType} {r r' : Role} (hr : r'=r) (hq : q'=q)
    (h : l.shape q∈shapes r) : l.shape q'∈shapes r' := by
  rw [hr,hq]
  exact h

namespace Block

/-- The work on the front request has answered it or left it waiting. -/
def Worked (cfg : DirectoryConfig) (toDram : List (DramMsg δ)) (rest : List (ShmemReq n))
    (result : Block n δ × Bool) : Prop :=
  result.1.queue.tail=rest ∧
    match result with
    | (b,true) => {b with queue:=rest}.Settled cfg ∧ b.toDram=toDram
    | (b,false) => b.Rests cfg ∧ b.queue≠[] ∧ unread b.toDram=unread toDram+awaitedReads b.queue

/-- The requester has been made a sharer and gets the data next. -/
structure Grants (cfg : DirectoryConfig) (cached : Option δ) (b : Block n δ) (r : ShmemReq n)
    (rest : List (ShmemReq n)) (reply : δ → CacheMsg δ) : Prop extends b.Sound cfg where
  queue : b.queue=r::rest
  wait : r.waitForData=false
  sharer : r.requester∈b.entry.sharers
  requester : (b.lines r.requester).shape (some r.type)∈shapes .outside
  others : ∀c≠r.requester,(b.lines c).shape (queuedRequest rest c) ∈
    shapes (b.entry.role (fun _ => .nothing) none c)
  replies : ∀data,Replies b.entry.dstate r.type (reply data).kind
  forwarder : cfg.protocol = .mesif → b.entry.dstate = .shared → cached=none →
    ∀c∈b.entry.forwarder,c∈b.entry.sharers ∧ (r.forwardingFrom=none → c≠r.requester)
  forwarding : r.isForwarding → b.entry.dstate = .shared

section Grants

variable {cfg : DirectoryConfig} {cached : Option δ} {b : Block n δ} {r : ShmemReq n}
  {rest : List (ShmemReq n)} {reply : δ → CacheMsg δ}

theorem Grants.answer (h : b.Grants cfg cached r rest reply) (data : δ)
    {forwarder : Option (Fin n)}
    (hforwarder : cfg.protocol = .mesif → b.entry.dstate = .shared → ∀c∈forwarder,c∈b.entry.sharers) :
    Worked cfg b.toDram rest
      ((b.withEntry {b.entry with forwarder}).send r.requester (reply data),true) := by
  have hdistinct := h.distinct
  have hfresh := h.fresh
  rw [h.queue] at hdistinct hfresh
  refine ⟨by rw [send,withEntry,h.queue,tail_cons],⟨?_,(pairwise_cons.mp hdistinct).2,hfresh,?_,hforwarder⟩,rfl⟩
  · exact ⟨h.proper.uncached,h.proper.owned,h.proper.bounded⟩
  · intro c
    rw [awaited_fresh (by exact hfresh)]
    change ((((b.withEntry _).send r.requester (reply data)).lines c).shape (queuedRequest rest c)) ∈
      shapes (b.entry.role (fun _ => .nothing) none c)
    rw [send_lines]
    split_ifs with hc
    · subst hc
      have hnone := hdistinct.queuedRequest_rest (h.replies data).ne_nullify
      have hanswer := (h.replies data).answer h.requester rfl
      rw [hnone,Line.answer_shape _ (some r.type),role_holder h.sharer (by simp)]
      exact hanswer
    · exact h.others c hc

theorem Grants.fits_front (h : b.Grants cfg cached r rest reply) (data : δ) {b' : Block n δ} {r' : ShmemReq n}
    (hentry : b'.entry=b.entry) (hqueue : b'.queue=r'::rest) (ht : r'.type=r.type)
    (hr : r'.requester=r.requester) (hgranted : r'.granted=true)
    (hself : b'.lines r.requester=b.lines r.requester)
    (hothers : ∀c≠r.requester,(b'.lines c).shape (queuedRequest rest c) ∈
      shapes (b.entry.role (r'.ask b.entry) none c)) : b'.Fits (asked b'.entry b'.queue) := by
  intro c
  have hawaited : awaited b'.queue=some r.requester := by
    rw [hqueue,awaited_cons,hgranted,if_pos rfl,hr]
  rw [hawaited,hqueue,hentry]
  by_cases hc : c=r.requester
  · subst hc
    rw [hself,role_awaited h.sharer,queuedRequest_congr ht hr,
      queuedRequest_cons_self (h.replies data).ne_nullify]
    exact movesShapes.outside _ h.requester (by simp [Line.shape])
  · rw [queuedRequest_cons_of_ne (by rw [hr]; exact Ne.symm hc)]
    refine fits_of_role (role_congr ?_ (by simp) fun _ => rfl) rfl (hothers c hc)
    simpa using Ne.symm hc

theorem Grants.waitForData (h : b.Grants cfg none r rest reply) (data : δ) :
    Worked cfg b.toDram rest ({ b with queue:={r with waitForData:=true}::rest
                                       toDram := b.toDram++[.readReq] },false) := by
  have hdistinct := h.distinct
  have hfresh := h.fresh
  rw [h.queue] at hdistinct hfresh
  refine ⟨rfl,⟨⟨h.proper,hdistinct.congr rfl rfl,hfresh⟩,?_,?_,?_⟩,cons_ne_nil _ _,?_⟩
  · refine h.fits_front data rfl rfl rfl rfl rfl rfl fun c hc => ?_
    refine fits_of_role (role_congr (by simp) (by simp) fun hmem => ?_) rfl
      (h.others c hc)
    have hs : b.entry.dstate = .shared := by
      by_contra hs
      exact hc (h.proper.eq_of_owned hs hmem h.sharer)
    exact ShmemReq.ask_wait hs ((h.replies data).type_of_shared hs) rfl
  · intro r' hr'
    cases hr'
    exact .data rfl h.sharer (h.replies data).fetches
  · exact fun hp hs => Or.inl fun c hc => (h.forwarder hp hs rfl c hc).1
  · simp [unread,awaitedReads]

theorem Grants.forward (h : b.Grants cfg none r rest reply) (data : δ) {f : Fin n}
    (hf : b.forwardsFrom cfg r=some f) :
    Worked cfg b.toDram rest
      ({b with queue:={r with forwardingFrom:=some f}::rest}.send f .wbReq,false) := by
  have hdistinct := h.distinct
  have hfresh := h.fresh
  rw [h.queue] at hdistinct hfresh
  rw [forwardsFrom] at hf
  split_ifs at hf with hcond
  obtain ⟨hp,hnone,hs⟩:=hcond
  obtain ⟨hmem,hne⟩:=h.forwarder hp hs rfl f hf
  have hother := hne hnone
  have ht := (h.replies data).type_of_shared hs
  have hask : ∀c,ShmemReq.ask {r with forwardingFrom:=some f} b.entry c =
      if f=c then .share else .nothing := fun c => ShmemReq.ask_forward hs ht h.wait rfl
  refine ⟨rfl,⟨⟨h.proper,hdistinct.congr rfl rfl,hfresh⟩,?_,?_,?_⟩,cons_ne_nil _ _,?_⟩
  · refine h.fits_front data rfl rfl rfl rfl (by simp [ShmemReq.granted,ShmemReq.isForwarding]) ?_
      fun c hc => ?_
    · rw [send_lines,if_neg (Ne.symm hother)]
    · have hrole := h.others c hc
      rw [send_lines]
      split_ifs with hcf
      · subst hcf
        rw [role_holder hmem (by simp),hs] at hrole
        rw [role_holder hmem (by simp),hs,hask,if_pos rfl,Line.receive_shape]
        exact (movesShapes.askSharer _ hrole).2.2.2
      · refine fits_of_role (role_congr (by simp) (by simp) fun _ => ?_) rfl hrole
        rw [hask,if_neg (Ne.symm hcf)]
  · intro r' hr'
    cases hr'
    exact .forward f h.wait rfl ht hs h.sharer hmem hother
  · exact fun _ _ => Or.inl fun c hc => (h.forwarder hp hs rfl c hc).1
  · simp [unread,awaitedReads,send,h.wait]

theorem Grants.retrieve (h : b.Grants cfg cached r rest reply) (nuca : Option δ) :
    ∃result,b.retrieveDataAndSendToL2Cache cfg nuca reply r.requester cached = .ok result ∧
      Worked cfg b.toDram rest result := by
  cases cached with
  | some d => exact ⟨_,rfl,h.answer d fun _ _ c hc => by cases hc; exact h.sharer⟩
  | none =>
    cases nuca with
    | some d => exact ⟨_,rfl,h.answer d fun hp hs c hc => (h.forwarder hp hs rfl c hc).1⟩
    | none =>
      rw [retrieveDataAndSendToL2Cache,h.queue]
      cases hf : b.forwardsFrom cfg r with
      | some f =>
        refine ⟨_,?_,h.forward (b.lines r.requester).data hf⟩
        simp only [hf]
      | none =>
        refine ⟨_,?_,h.waitForData (b.lines r.requester).data⟩
        simp only [hf]

end Grants

end Block

namespace DirectoryEntry

variable {e : DirectoryEntry n} {c : Fin n}

theorem mem_sharersList : c∈e.sharersList ↔ c∈e.sharers := by
  simp [sharersList]

theorem nodup_sharersList (e : DirectoryEntry n) : e.sharersList.Nodup := (nodup_finRange n).filter _

theorem sharersList_eq_singleton : e.sharersList=[c] ↔ e.sharers={c} := by
  constructor
  · intro h
    ext d
    rw [← mem_sharersList,h,mem_singleton,Finset.mem_singleton]
  · intro h
    refine perm_singleton.mp ?_
    refine (perm_ext_iff_of_nodup e.nodup_sharersList (nodup_singleton c)).mpr fun d => ?_
    rw [mem_sharersList,h,mem_singleton,Finset.mem_singleton]

theorem take_uncached (hu : e.sharers = ∅) {maxHwSharers : ℕ} (hmax : 0 < maxHwSharers)
    (dstate : DirectoryState) : e.take c maxHwSharers dstate = .ok ⟨dstate,{c},some c,e.forwarder⟩ := by
  have hcard : ¬ (∅ : Finset (Fin n)).card ≥ maxHwSharers := by
    rw [Finset.card_empty]
    omega
  simp only [take,addSharer,numSharers,if_neg hcard,setOwner,hu,Finset.notMem_empty,↓reduceIte,ok_bind,
    insert_empty_eq,Finset.mem_singleton]

theorem proper_single {maxHwSharers : ℕ} (hmax : 0 < maxHwSharers) {dstate : DirectoryState}
    (hs : dstate ≠ .uncached) (forwarder : Option (Fin n)) :
    (⟨dstate,{c},some c,forwarder⟩ : DirectoryEntry n).Proper maxHwSharers :=
  ⟨⟨fun h => absurd h hs,fun h => absurd h (Finset.singleton_ne_empty c)⟩,fun _ => ⟨c,rfl,rfl⟩,
    by rw [Finset.card_singleton]; omega⟩

theorem getOneSharer_mem (h : e.sharers.Nonempty) (pick : ℕ) : ∃c∈e.sharers,e.getOneSharer pick = .ok c := by
  obtain ⟨d,hd⟩:=h
  have hpos : 0<e.sharersList.length := length_pos_of_mem (mem_sharersList.mpr hd)
  have hlt := Nat.mod_lt pick hpos
  refine ⟨e.sharersList[pick % e.sharersList.length],mem_sharersList.mp (getElem_mem hlt),?_⟩
  rw [getOneSharer,List.getElem?_eq_getElem hlt]

end DirectoryEntry

namespace Block

section Ready

variable {cfg : DirectoryConfig} {cached : Option δ} {b : Block n δ} {r : ShmemReq n}
  {rest : List (ShmemReq n)}

variable (h : b.Ready cfg cached) (hqueue : b.queue=r::rest)
include h hqueue

theorem Ready.requester_outside (ht : r.type = .exReq ∨ r.type = .shReq) (hf : r.isForwarding=false) :
    r.requester∉b.entry.sharers := by
  intro hmem
  have hwait := (h.pending r (by rw [hqueue]; rfl)).1
  have hawaited : awaited b.queue=none := by
    rw [hqueue,awaited_cons,ShmemReq.granted,hwait,hf]
    rfl
  have hnull : r.type ≠ .nullifyReq := by
    rcases ht with ht | ht <;> rw [ht] <;> decide
  have hfits := h.fits r.requester
  rw [hawaited,role_holder hmem (by simp),hqueue,queuedRequest_cons_self hnull] at hfits
  have hinside := DirectoryState.holder_inside (h.proper.dstate_ne hmem) .nothing
  rcases movesShapes.fetching _ _ hfits (by simpa [Line.shape] using ht) with hrole | hrole
  · exact hinside.1 hrole
  · exact hinside.2 hrole

theorem Ready.waits : r.waitForData=false := (h.pending r (by rw [hqueue]; rfl)).1

section

variable (hf : r.isForwarding=false)
include hf

theorem Ready.awaited_none : awaited b.queue=none := by
  rw [hqueue,awaited_cons,ShmemReq.granted,h.waits hqueue,hf]
  rfl

theorem Ready.fits_holder {c : Fin n} (hc : c∈b.entry.sharers) :
    (b.lines c).shape (queuedRequest b.queue c)∈shapes (b.entry.dstate.holder .nothing) := by
  have hfits := h.fits c
  rwa [h.awaited_none hqueue hf,role_holder hc (by simp)] at hfits

theorem Ready.asks {b' : Block n δ} (r' : ShmemReq n) (hentry : b'.entry=b.entry)
    (hqueue' : b'.queue=r'::rest) (ht : r'.type=r.type) (hr : r'.requester=r.requester)
    (hdram : b'.toDram=b.toDram) (hwait : r'.waitForData=false) (hforwarding : r'.forwardingFrom=none)
    (hwaits : r'.Waits b.entry) (houtside : ∀c,c∉b.entry.sharers → b'.lines c=b.lines c)
    (hinside : ∀c∈b.entry.sharers,
    (b'.lines c).shape (queuedRequest b.queue c)∈shapes (b.entry.dstate.holder (r'.ask b.entry
    c))) (hforwarder : cached.isSome → r.type = .shReq) : Worked cfg b.toDram rest (b',false) := by
  have hdistinct := h.distinct
  have hfresh := h.fresh
  rw [hqueue] at hdistinct hfresh
  have hgranted : r'.granted=false := by
    rw [ShmemReq.granted,ShmemReq.isForwarding,hwait,hforwarding]
    rfl
  have hawaited : awaited b'.queue=none := by
    rw [hqueue',awaited_cons,hgranted,if_neg Bool.false_ne_true]
  refine ⟨by rw [hqueue']; rfl,⟨⟨hentry ▸ h.proper,hqueue' ▸ hdistinct.congr ht hr,
    by rw [hqueue']; exact hfresh⟩,fun c => ?_,?_,?_⟩,by simp [hqueue'],?_⟩
  · rw [hawaited,hqueue',queuedRequest_congr ht hr,← hqueue,hentry]
    by_cases hc : c∈b.entry.sharers
    · rw [role_holder hc (by simp)]
      exact hinside c hc
    · have hfits := h.fits c
      rw [role_outside hc] at hfits ⊢
      rwa [houtside c hc]
  · intro r'' hr''
    rw [hqueue'] at hr''
    cases hr''
    rw [hentry]
    exact hwaits
  · intro hp hs
    rw [hentry] at hs ⊢
    cases hcached : cached with
    | none => exact Or.inl (h.forwarder hp hs hcached)
    | some d =>
      have hsome : cached.isSome := by rw [hcached]; rfl
      rcases h.useful hsome with hu | ⟨-,huse⟩
      · rw [hu] at hs
        cases hs
      · have hcard := (huse r (by rw [hqueue]; rfl)).2
        rw [hf] at hcard
        refine Or.inr ⟨hcard.resolve_left Bool.false_ne_true,r',by rw [hqueue']; rfl,?_,hgranted⟩
        rw [ht]
        exact hforwarder hsome
  · simp [hdram,hqueue',awaitedReads,hwait]

theorem Ready.ask_owner (hs : b.entry.dstate = .exclusive ∨ b.entry.dstate = .modified) :
    cached=none ∧ ∃b',b.sendOwner (if r.type = .shReq then .wbReq else .flushReq) = .ok b' ∧
      Worked cfg b.toDram rest (b',false) := by
  have hcached : cached=none := by
    by_contra hne
    rcases h.useful (Option.isSome_iff_ne_none.mpr hne) with hu | ⟨hu,-⟩ <;>
      rw [hu] at hs <;> simp at hs
  obtain ⟨o,howner,hsharers⟩:=h.proper.owned hs
  have hmem : o∈b.entry.sharers := by rw [hsharers]; exact Finset.mem_singleton_self o
  refine ⟨hcached,b.send o (if r.type = .shReq then .wbReq else .flushReq),by rw [sendOwner,howner],?_⟩
  have hnone : r.forwardingFrom=none := by simpa [ShmemReq.isForwarding] using hf
  have hshared : b.entry.dstate ≠ .shared := by
    rcases hs with hs | hs <;> rw [hs] <;> decide
  refine h.asks hqueue hf r rfl hqueue rfl rfl rfl (h.waits hqueue) hnone ?_ ?_ ?_ ?_
  · exact .replies (h.waits hqueue) hnone (h.proper.dstate_ne hmem)
      (fun hs => absurd hs hshared) fun hs => absurd hs hshared
  · intro c hc
    have hne : c≠o := fun heq => hc (heq ▸ hmem)
    rw [send_lines,if_neg hne]
  · intro c hc
    rw [hsharers,Finset.mem_singleton] at hc
    have hfits := h.fits_holder hqueue hf hmem
    rw [send_lines,if_pos hc,Line.receive_shape,hc]
    rcases hs with hs | hs <;> rw [hs] at hfits ⊢ <;> split_ifs with ht <;>
      simp only [DirectoryState.holder,ShmemReq.ask,hs,ht,if_true,if_false]
    · exact (movesShapes.askOwner false _ hfits).2
    · exact (movesShapes.askOwner false _ hfits).1
    · exact (movesShapes.askOwner true _ hfits).2
    · exact (movesShapes.askOwner true _ hfits).1
  · rw [hcached]
    exact fun h => absurd h Bool.false_ne_true

theorem Ready.ask_sharers (hs : b.entry.dstate = .shared) (hcached : cached=none)
    (ht : r.type = .exReq ∨ r.type = .nullifyReq) :
    Worked cfg b.toDram rest (b.sendAll (fun _ => .invReq) b.entry.sharersList,false) := by
  have hnone : r.forwardingFrom=none := by simpa [ShmemReq.isForwarding] using hf
  obtain ⟨hentry,hqueue',hdram⟩:=b.sendAll_frame (fun _ => .invReq) b.entry.sharersList
  have hlines := b.sendAll_lines (fun _ => .invReq) b.entry.nodup_sharersList
  refine h.asks hqueue hf r hentry (hqueue'.trans hqueue) rfl rfl hdram (h.waits hqueue) hnone ?_ ?_ ?_ ?_
  · refine .replies (h.waits hqueue) hnone (by rw [hs]; decide) (fun _ hup => ?_) fun _ hsh => ?_
    · rcases ht with ht | ht <;> rw [ht] at hup <;> cases hup
    · rcases ht with ht | ht <;> rw [ht] at hsh <;> cases hsh
  · intro c hc
    rw [hlines,if_neg (mt mem_sharersList.mp hc)]
  · intro c hc
    have hfits := h.fits_holder hqueue hf hc
    rw [hlines,if_pos (mem_sharersList.mpr hc),Line.receive_shape]
    have hask : r.ask b.entry c = .invalidation := by
      rcases ht with ht | ht <;> simp [ShmemReq.ask,hs,ht]
    rw [hask]
    rw [hs] at hfits ⊢
    exact (movesShapes.askSharer _ hfits).1
  · rw [hcached]
    exact fun h => absurd h Bool.false_ne_true

end

theorem Ready.cached_none (hs : b.entry.dstate ≠ .uncached) (ht : r.type ≠ .shReq) : cached=none := by
  by_contra hne
  rcases h.useful (Option.isSome_iff_ne_none.mpr hne) with hu | ⟨-,huse⟩
  · exact hs hu
  · exact ht (huse r (by rw [hqueue]; rfl)).1

theorem Ready.grants_uncached (hmax : 0<cfg.maxHwSharers) (hu : b.entry.dstate = .uncached)
    {s : DirectoryState} {reply : δ → CacheMsg δ} (hreplies : ∀data,Replies s r.type (reply data).kind)
    (hs : s = .shared → cfg.protocol ≠ .mesif) (cached' : Option δ) :
    (b.withEntry ⟨s,{r.requester},some r.requester,b.entry.forwarder⟩).Grants cfg cached' r rest reply := by
  have hempty := h.proper.uncached.mp hu
  have hreply := hreplies (b.lines r.requester).data
  have hoffers : ∀c,(b.lines c).shape (queuedRequest b.queue c)∈shapes .outside := fun c => by
    have hfits := h.fits c
    rwa [role_outside (by simp [hempty])] at hfits
  refine ⟨⟨proper_single hmax ?_ _,h.distinct,h.fresh⟩,hqueue,h.waits hqueue,Finset.mem_singleton_self _,?_,
    fun c hc => ?_,hreplies,fun hp hshared => absurd hp (hs hshared),?_⟩
  · rintro rfl
    cases hreply
  · have hself := hoffers r.requester
    rwa [hqueue,queuedRequest_cons_self hreply.ne_nullify] at hself
  · have hother := hoffers c
    rw [hqueue,queuedRequest_cons_of_ne (Ne.symm hc)] at hother
    exact fits_of_role (role_outside (by simpa [withEntry] using hc)) rfl hother
  · intro hf
    have hshared := ((h.pending r (by rw [hqueue]; rfl)).2 hf).2.1
    rw [hu] at hshared
    cases hshared

theorem Ready.not_forwarding (ht : r.type ≠ .shReq) : r.isForwarding=false := by
  by_contra hf
  exact ht ((h.pending r (by rw [hqueue]; rfl)).2 (Bool.eq_true_of_not_eq_false hf)).1

theorem Ready.processExReq (hmax : 0<cfg.maxHwSharers) (ht : r.type = .exReq) (nuca : Option δ) :
    ∃result,b.processExReqFromL2Cache cfg nuca r cached = .ok result ∧ Worked cfg b.toDram rest result := by
  have hf := h.not_forwarding hqueue (by rw [ht]; decide)
  rw [processExReqFromL2Cache]
  cases hs : b.entry.dstate with
  | exclusive | modified =>
    obtain ⟨rfl,b',hsend,hworked⟩:=h.ask_owner hqueue hf (by rw [hs]; simp)
    rw [ht] at hsend
    refine ⟨(b',false),?_,hworked⟩
    simp only [Option.isSome_none,Bool.false_eq_true,if_false]
    rw [show b.sendOwner .flushReq = .ok b' from hsend,ok_bind]
  | shared =>
    have hcached := h.cached_none hqueue (by rw [hs]; decide) (by rw [ht]; decide)
    subst hcached
    exact ⟨_,rfl,h.ask_sharers hqueue hf hs rfl (Or.inl ht)⟩
  | uncached =>
    rw [take_uncached (h.proper.uncached.mp hs) hmax]
    refine (h.grants_uncached hqueue hmax hs (fun _ => ?_) (fun hs => by cases hs) cached).retrieve nuca
    rw [ht]
    exact .fetch

theorem Ready.grants_sharer (ht : r.type = .shReq) (hs : b.entry.dstate = .shared)
    (hmem : r.requester∈b.entry.sharers) : b.Grants cfg cached r rest .shRep := by
  have hf : r.isForwarding=true := by
    by_contra hf
    exact h.requester_outside hqueue (Or.inr ht) (Bool.eq_false_of_not_eq_true hf) hmem
  have hnull : r.type ≠ .nullifyReq := by rw [ht]; decide
  have hawaited : awaited b.queue=some r.requester := by
    rw [hqueue,awaited_cons,ShmemReq.granted,hf,Bool.or_true,if_pos rfl]
  refine ⟨⟨h.proper,h.distinct,h.fresh⟩,hqueue,h.waits hqueue,hmem,?_,fun c hc => ?_,fun _ => ?_,
    fun hp hs hcached c hc => ⟨h.forwarder hp hs hcached c hc,fun hnone => ?_⟩,fun _ => hs⟩
  · have hself := h.fits r.requester
    rw [hawaited,role_awaited hmem,hqueue,queuedRequest_cons_self hnull] at hself
    exact movesShapes.awaited _ hself
  · have hother := h.fits c
    rw [hawaited,hqueue,queuedRequest_cons_of_ne (Ne.symm hc)] at hother
    refine fits_of_role (role_congr (by simp) ?_ fun _ => rfl) rfl hother
    simpa using Ne.symm hc
  · rw [ht,hs]
    exact .shared
  · simp [ShmemReq.isForwarding,hnone] at hf

theorem Ready.grants_added (ht : r.type = .shReq) (hs : b.entry.dstate = .shared)
    (hmem : r.requester∉b.entry.sharers) (hroom : b.entry.numSharers<cfg.maxHwSharers) :
    (b.withEntry {b.entry with sharers:=insert r.requester b.entry.sharers}).Grants cfg cached r
      rest .shRep := by
  have hf : r.isForwarding=false := by
    by_contra hf
    exact hmem ((h.pending r (by rw [hqueue]; rfl)).2 (Bool.eq_true_of_not_eq_false hf)).2.2
  have hnull : r.type ≠ .nullifyReq := by rw [ht]; decide
  have hawaited := h.awaited_none hqueue hf
  refine ⟨⟨⟨?_,?_,?_⟩,h.distinct,h.fresh⟩,hqueue,h.waits hqueue,Finset.mem_insert_self _ _,?_,fun c hc => ?_,
    fun _ => ?_,fun hp hs hcached c hc => ?_,fun hf' => ?_⟩
  · simp [withEntry,hs]
  · simp [withEntry,hs]
  · rw [withEntry,Finset.card_insert_of_notMem hmem]
    exact hroom
  · have hself := h.fits r.requester
    rwa [role_outside hmem,hqueue,queuedRequest_cons_self hnull] at hself
  · have hother := h.fits c
    rw [hawaited,hqueue,queuedRequest_cons_of_ne (Ne.symm hc)] at hother
    refine fits_of_role ?_ rfl hother
    simp [DirectoryEntry.role,withEntry,hc]
  · rw [ht,withEntry,hs]
    exact .shared
  · have hsharer := h.forwarder hp hs hcached c hc
    exact ⟨Finset.mem_insert_of_mem hsharer,fun _ heq => hmem (heq ▸ hsharer)⟩
  · rw [hf] at hf'
    cases hf'

theorem Ready.ask_victim (ht : r.type = .shReq) (hs : b.entry.dstate = .shared)
    (hf : r.isForwarding=false) {victim : Fin n} (hvictim : victim∈b.entry.sharers) :
    Worked cfg b.toDram rest
      ((b.updateFront fun r => {r with overflow:=some victim}).send victim .invReq,false) := by
  have hnone : r.forwardingFrom=none := by simpa [ShmemReq.isForwarding] using hf
  have hwait := h.waits hqueue
  have hask : ∀c,ShmemReq.ask {r with overflow:=some victim} b.entry c =
      if victim=c then .invalidation else .nothing := fun c => by
    simp [ShmemReq.ask,hs,ht,hwait,ShmemReq.isForwarding,hnone]
  rw [updateFront,hqueue]
  refine h.asks hqueue hf {r with overflow:=some victim} rfl rfl rfl rfl rfl hwait hnone ?_ ?_ ?_
    fun _ => ht
  · refine .replies hwait hnone (by rw [hs]; decide) (fun _ hup => ?_) fun _ _ => ⟨victim,hvictim,rfl⟩
    rw [ht] at hup
    cases hup
  · intro c hc
    have hne : c≠victim := fun heq => hc (heq ▸ hvictim)
    rw [send_lines,if_neg hne]
  · intro c hc
    have hfits := h.fits_holder hqueue hf hc
    rw [hs] at hfits
    rw [send_lines,hask,hs]
    by_cases hcv : c=victim
    · rw [if_pos hcv,if_pos hcv.symm,Line.receive_shape]
      exact (movesShapes.askSharer _ hfits).1
    · rw [if_neg hcv,if_neg (Ne.symm hcv)]
      exact hfits

theorem Ready.processShReq (hmax : 0<cfg.maxHwSharers) (ht : r.type = .shReq) (nuca : Option δ) (pick : ℕ) :
    ∃result,b.processShReqFromL2Cache cfg nuca pick r cached = .ok result ∧
      Worked cfg b.toDram rest result := by
  rw [processShReqFromL2Cache]
  have hpending := (h.pending r (by rw [hqueue]; rfl)).2
  have hforwarding : b.entry.dstate ≠ .shared ∨ r.requester∉b.entry.sharers →
      r.isForwarding=false := fun hor => by
    by_contra hf
    obtain ⟨-,hs,hmem⟩:=hpending (Bool.eq_true_of_not_eq_false hf)
    exact hor.elim (fun hs' => hs' hs) fun hmem' => hmem' hmem
  cases hs : b.entry.dstate with
  | exclusive | modified =>
    have hf := hforwarding (by rw [hs]; simp)
    have howner : b.entry.owner≠some r.requester := fun howner => by
      obtain ⟨o,ho,hsharers⟩:=h.proper.owned (by rw [hs]; simp)
      have hmem := h.requester_outside hqueue (Or.inr ht) hf
      rw [ho,Option.some.injEq] at howner
      rw [hsharers,howner] at hmem
      exact hmem (Finset.mem_singleton_self _)
    obtain ⟨rfl,b',hsend,hworked⟩:=h.ask_owner hqueue hf (by rw [hs]; simp)
    rw [if_pos ht] at hsend
    refine ⟨(b',false),?_,hworked⟩
    simp only [howner,Option.isSome_none,Bool.false_eq_true,or_self,if_false,hsend,ok_bind]
  | shared =>
    by_cases hmem : r.requester∈b.entry.sharers
    · simp only [if_pos hmem]
      exact (h.grants_sharer hqueue ht hs hmem).retrieve nuca
    · simp only [if_neg hmem,DirectoryEntry.addSharer]
      by_cases hroom : b.entry.numSharers ≥ cfg.maxHwSharers
      · have hnonempty : b.entry.sharers.Nonempty := Finset.card_pos.mp (lt_of_lt_of_le hmax hroom)
        obtain ⟨victim,hvictim,hone⟩:=getOneSharer_mem hnonempty pick
        refine ⟨_,?_,h.ask_victim hqueue ht hs (hforwarding (Or.inr hmem)) hvictim⟩
        simp only [if_pos hroom,ok_bind,Bool.false_eq_true,if_false,hone]
      · simp only [if_neg hroom,ok_bind,if_true]
        exact (h.grants_added hqueue ht hs hmem (not_le.mp hroom)).retrieve nuca
  | uncached =>
    have htake := fun s => take_uncached (c:=r.requester)
      (h.proper.uncached.mp hs) hmax s
    by_cases hp : cfg.protocol = .msi
    · simp only [if_pos hp,htake,ok_bind]
      refine (h.grants_uncached hqueue hmax hs (fun _ => ?_) (fun _ => ?_) cached).retrieve nuca
      · rw [ht]
        exact .shared
      · rw [hp]
        decide
    · simp only [if_neg hp,htake,ok_bind]
      refine (h.grants_uncached hqueue hmax hs (fun _ => ?_) (fun hs => by cases hs) cached).retrieve nuca
      rw [ht]
      exact .exclusive

theorem Ready.answer_upgrade (ht : r.type = .upgradeReq) (hs : b.entry.dstate = .shared)
    (hsharers : b.entry.sharers={r.requester}) :
    Worked cfg b.toDram rest
      ((b.withEntry {b.entry with owner:=some r.requester,dstate:=.modified}).send r.requester
        .upgradeRep,true) := by
  have hf := h.not_forwarding hqueue (by rw [ht]; decide)
  have hnull : r.type ≠ .nullifyReq := by rw [ht]; decide
  have hmem : r.requester∈b.entry.sharers := by rw [hsharers]; exact Finset.mem_singleton_self _
  have hdistinct := h.distinct
  have hfresh := h.fresh
  rw [hqueue] at hdistinct hfresh
  refine ⟨by rw [send,withEntry,hqueue,tail_cons],
    ⟨⟨?_,fun _ => ⟨r.requester,rfl,hsharers⟩,h.proper.bounded⟩,(pairwise_cons.mp hdistinct).2,hfresh,
      fun c => ?_,
      fun _ hs' => by cases hs'⟩,rfl⟩
  · simp [send,withEntry,hsharers]
  · rw [awaited_fresh (by exact hfresh)]
    change ((((b.withEntry _).send r.requester .upgradeRep).lines c).shape (queuedRequest rest c)) ∈
      shapes (DirectoryEntry.role {b.entry with owner:=some r.requester,dstate:=.modified}
        (fun _ => .nothing) none c)
    rw [send_lines]
    split_ifs with hc
    · subst hc
      have hfits := h.fits_holder hqueue hf hmem
      rw [hs,hqueue,queuedRequest_cons_self hnull,ht] at hfits
      have hrole : DirectoryEntry.role {b.entry with owner:=some r.requester,dstate:=.modified}
          (fun _ => .nothing) none r.requester = .owner true .nothing :=
        role_holder hmem (by simp)
      rw [hdistinct.queuedRequest_rest hnull,Line.answer_shape _ (some .upgradeReq),hrole]
      exact movesShapes.answerUpgrade _ hfits rfl
    · have hout : c∉b.entry.sharers := by rw [hsharers]; simpa using hc
      have hfits := h.fits c
      rw [role_outside hout,hqueue,queuedRequest_cons_of_ne (Ne.symm hc)] at hfits
      exact fits_of_role (role_outside hout) rfl hfits

theorem Ready.ask_others (ht : r.type = .upgradeReq) (hs : b.entry.dstate = .shared)
    (hcached : cached=none) (hsharers : b.entry.sharers≠{r.requester}) (first : Option (Fin n))
    (hfirst : r.requester∈b.entry.sharers → first=none) :
    Worked cfg b.toDram rest
      (b.sendAll (fun c => if first=some c then .flushReq else .invReq)
        (b.entry.sharersList.filter fun c => c≠r.requester),false) := by
  have hf := h.not_forwarding hqueue (by rw [ht]; decide)
  have hnone : r.forwardingFrom=none := by simpa [ShmemReq.isForwarding] using hf
  obtain ⟨hentry,hqueue',hdram⟩:=b.sendAll_frame
    (fun c => if first=some c then .flushReq else .invReq)
    (b.entry.sharersList.filter fun c => c≠r.requester)
  have hlines := b.sendAll_lines (fun c => if first=some c then .flushReq else .invReq)
    (b.entry.nodup_sharersList.filter fun c => c≠r.requester)
  refine h.asks hqueue hf r hentry (hqueue'.trans hqueue) rfl rfl hdram (h.waits hqueue) hnone ?_ ?_ ?_ ?_
  · refine .replies (h.waits hqueue) hnone (by rw [hs]; decide) (fun _ _ => hsharers) fun _ hsh => ?_
    rw [ht] at hsh
    cases hsh
  · intro c hc
    rw [hlines,if_neg fun hmem => hc (mem_sharersList.mp (mem_of_mem_filter hmem))]
  · intro c hc
    have hfits := h.fits_holder hqueue hf hc
    have hmem : c∈b.entry.sharersList.filter (fun c => c≠r.requester) ↔ c≠r.requester := by
      simp [mem_sharersList,hc]
    have hask : r.ask b.entry c=if c=r.requester then .nothing
        else if r.requester∈b.entry.sharers then .invalidation else .data := by
      simp [ShmemReq.ask,hs,ht]
    rw [hs] at hfits ⊢
    obtain ⟨hinv,hdata,hflush,-⟩:=movesShapes.askSharer _ hfits
    rw [hask,hlines]
    by_cases hc : c=r.requester
    · rw [if_pos hc,if_neg fun hm => hmem.mp hm hc]
      exact hfits
    · rw [if_neg hc,if_pos (hmem.mpr hc),Line.receive_shape]
      by_cases hr : r.requester∈b.entry.sharers
      · rw [if_pos hr,hfirst hr]
        exact hinv
      · rw [if_neg hr]
        split_ifs
        · exact hflush
        · exact hdata
  · rw [hcached]
    exact fun h => absurd h Bool.false_ne_true

theorem Ready.processUpgradeReq (hmax : 0<cfg.maxHwSharers) (ht : r.type = .upgradeReq) (nuca : Option δ)
    (freed : δ) : ∃result,b.processUpgradeReqFromL2Cache cfg nuca freed r cached = .ok result ∧
      Worked cfg b.toDram rest result := by
  have hf := h.not_forwarding hqueue (by rw [ht]; decide)
  have hnull : r.type ≠ .nullifyReq := by rw [ht]; decide
  rw [processUpgradeReqFromL2Cache]
  cases hs : b.entry.dstate with
  | exclusive | modified =>
    obtain ⟨o,howner,hsharers⟩:=h.proper.owned (by rw [hs]; simp)
    have hne : o≠r.requester := fun heq => by
      have hmem : r.requester∈b.entry.sharers := by rw [hsharers,heq]; exact Finset.mem_singleton_self _
      have hfits := h.fits_holder hqueue hf hmem
      rw [hs,hqueue,queuedRequest_cons_self hnull] at hfits
      exact movesShapes.upgrading _ _ hfits (by simp [Line.shape,ht]) _ _ rfl
    obtain ⟨rfl,b',hsend,hworked⟩:=h.ask_owner hqueue hf (by rw [hs]; simp)
    rw [if_neg (by rw [ht]; decide)] at hsend
    refine ⟨(b',false),?_,hworked⟩
    simp only [sharersList_eq_singleton.mpr hsharers,if_neg hne,hsend,ok_bind]
  | shared =>
    have hcached := h.cached_none hqueue (by rw [hs]; decide) (by rw [ht]; decide)
    by_cases hsharers : b.entry.sharers={r.requester}
    · have hmem : r.requester∈b.entry.sharers := by rw [hsharers]; exact Finset.mem_singleton_self _
      refine ⟨_,?_,h.answer_upgrade hqueue ht hs hsharers⟩
      simp only [sharersList_eq_singleton.mpr hsharers,if_true,DirectoryEntry.setOwner,if_pos hmem,ok_bind]
    · refine ⟨_,?_,h.ask_others hqueue ht hs hcached hsharers
        (if r.requester∈b.entry.sharers then none else b.entry.sharersList.head?) fun hr => if_pos hr⟩
      simp only [if_neg (mt sharersList_eq_singleton.mp hsharers)]
  | uncached =>
    have hempty := h.proper.uncached.mp hs
    simp only [DirectoryEntry.numSharers,hempty,Finset.card_empty,if_true,take_uncached hempty hmax,ok_bind]
    refine (h.grants_uncached hqueue hmax hs (fun _ => ?_) (fun hs => by cases hs) _).retrieve nuca
    rw [ht]
    exact .upgrade

theorem Ready.processNullifyReq (ht : r.type = .nullifyReq) :
    ∃result,b.processNullifyReq = .ok result ∧ Worked cfg b.toDram rest result := by
  have hf := h.not_forwarding hqueue (by rw [ht]; decide)
  rw [Block.processNullifyReq]
  cases hs : b.entry.dstate with
  | exclusive | modified =>
    obtain ⟨-,b',hsend,hworked⟩:=h.ask_owner hqueue hf (by rw [hs]; simp)
    rw [if_neg (by rw [ht]; decide)] at hsend
    exact ⟨(b',false),by simp only [hsend,ok_bind],hworked⟩
  | shared =>
    have hcached := h.cached_none hqueue (by rw [hs]; decide) (by rw [ht]; decide)
    exact ⟨_,rfl,h.ask_sharers hqueue hf hs hcached (Or.inr ht)⟩
  | uncached =>
    have hdistinct := h.distinct
    have hfresh := h.fresh
    rw [hqueue] at hdistinct hfresh
    refine ⟨_,rfl,by rw [hqueue]; rfl,⟨h.proper,(pairwise_cons.mp hdistinct).2,hfresh,fun c => ?_,
      fun _ hs' => ?_⟩,rfl⟩
    · have hfits := h.fits c
      rw [h.awaited_none hqueue hf,hqueue,queuedRequest,if_neg fun hr => hr.1 ht] at hfits
      rw [awaited_fresh (by exact hfresh)]
      exact hfits
    · rw [hs] at hs'
      cases hs'

theorem Ready.processFront (hmax : 0<cfg.maxHwSharers) (nuca : Option δ) (u : Unspecified n δ) :
    ∃result,b.processFront cfg nuca u cached = .ok result ∧ Worked cfg b.toDram rest result := by
  rw [Block.processFront,hqueue]
  cases ht : r.type with
  | exReq => simpa only [ht] using h.processExReq hqueue hmax ht nuca
  | shReq => simpa only [ht] using h.processShReq hqueue hmax ht nuca u.pick
  | upgradeReq => simpa only [ht] using h.processUpgradeReq hqueue hmax ht nuca u.freed
  | nullifyReq => simpa only [ht] using h.processNullifyReq hqueue ht

end Ready

end Block

end Sniper.Coherence
