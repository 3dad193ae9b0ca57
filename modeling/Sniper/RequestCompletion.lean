import Sniper.RequestHistory

/-! # Requests are completed once and in order -/

namespace Sniper.Coherence
open FallibleRuns NotedRuns NotedRuns.Noted List

namespace Line

variable {δ : Type} {l l' : Line δ}

theorem processUpgradeReq_toCache (h : l.processUpgradeReqToDirectory = .ok l') : l'.toCache=l.toCache := by
  rw [processUpgradeReqToDirectory] at h
  split_ifs at h
  cases h
  rfl

theorem initiateDirectoryAccess_toCache {exclusive : Bool}
    (h : l.initiateDirectoryAccess exclusive = .ok l') : l'.toCache=l.toCache := by
  rw [initiateDirectoryAccess] at h
  split_ifs at h
  · exact (processUpgradeReq_toCache h :)
  · rw [processExReqToDirectory] at h
    split_ifs at h
    cases h
    rfl
  · cases h
    rfl
  · cases h
    rfl

theorem access_toCache {exclusive : Bool} (h : l.access exclusive = .ok l') : l'.toCache=l.toCache := by
  unfold access at h
  split at h
  all_goals first
    | exact initiateDirectoryAccess_toCache h
    | cases h; rfl

theorem store_toCache (l : Line δ) (data : δ) : (l.store data).toCache=l.toCache := by
  rw [store]
  split <;> rfl

theorem evict_toCache (l : Line δ) : l.evict.toCache=l.toCache := by
  rw [evict]
  split <;> rfl

theorem wake_toCache {waiters : List Bool} (h : l.wake waiters = .ok l') : l'.toCache=l.toCache := by
  induction waiters generalizing l with
  | nil =>
    cases h
    rfl
  | cons exclusive waiters ih =>
    cases exclusive with
    | false => exact ih h
    | true =>
      rw [wake] at h
      split_ifs at h
      · exact (processUpgradeReq_toCache h :)
      · exact (ih h :)

theorem wakeWaiters_toCache (h : l.wakeWaiters = .ok l') : l'.toCache=l.toCache := by
  rw [wakeWaiters] at h
  split_ifs at h
  exact wake_toCache h

theorem handleMsg_toCache {m : CacheMsg δ} {stack : δ} (h : l.handleMsgFromDramDirectory m stack = .ok l') :
    l'.toCache=l.toCache := by
  cases m with
  | exRep data | shRep data =>
    obtain ⟨l₁,hinsert,hwake⟩:=bind_ok h
    rw [wakeWaiters_toCache hwake]
    simp only [processExRepFromDramDirectory,processShRepFromDramDirectory,insertCacheBlock] at hinsert
    split_ifs at hinsert
    cases hinsert
    rfl
  | upgradeRep =>
    obtain ⟨l₁,hupgrade,hwake⟩:=bind_ok h
    rw [wakeWaiters_toCache hwake]
    rw [processUpgradeRepFromDramDirectory] at hupgrade
    split_ifs at hupgrade
    cases hupgrade
    rfl
  | invReq =>
    rw [handleMsgFromDramDirectory,processInvReqFromDramDirectory] at h
    split at h <;> cases h <;> rfl
  | flushReq =>
    cases h
    rw [processFlushReqFromDramDirectory]
    split <;> rfl
  | wbReq =>
    cases h
    rw [processWbReqFromDramDirectory]
    split <;> rfl

theorem deliver_toCache {stack : δ} (h : l.deliver stack = .ok l') : l'.toCache=l.toCache.tail := by
  rw [deliver] at h
  split at h
  · next hbox =>
    cases h
    rw [hbox]
    rfl
  · next m rest hbox =>
    rw [handleMsg_toCache h,hbox]
    rfl

end Line

namespace DirectorySystem

variable {n : ℕ} {δ : Type} {s s' t : DirectorySystem n δ} {a b : ℕ} {x y : Block n δ}
  {notes notes' : List (Moment n δ)} {cached : Option δ}

theorem Same.refl (s : DirectorySystem n δ) : Same s s := fun _ => ⟨rfl,fun _ => rfl⟩

theorem Same.trans (h : Same s t) (h' : Same t s') : Same s s' :=
  fun a => ⟨(h' a).1.trans (h a).1,(h a).2.trans (h' a).2⟩

theorem same_of_blocks (h : s'.blocks=s.blocks) : Same s s' := fun a => by
  rw [h]
  exact ⟨rfl,fun _ => rfl⟩

theorem sameBut_setBlock (s : DirectorySystem n δ) (a : ℕ) (x y : Block n δ) :
    SameBut a (s.setBlock a x) (s.setBlock a y) := fun b hb => by
  rw [setBlock_blocks_of_ne _ _ hb,setBlock_blocks_of_ne _ _ hb]
  exact ⟨rfl,fun _ => rfl⟩

theorem same_setBlock (hkinds : kinds y.queue=kinds x.queue) (hsilent : x.Silent y) :
    Same (s.setBlock a x) (s.setBlock a y) := by
  intro b
  by_cases hb : b=a
  · subst hb
    rw [setBlock_blocks_self,setBlock_blocks_self]
    exact ⟨hkinds,hsilent⟩
  · exact sameBut_setBlock s a x y b hb

theorem setBlock_self (s : DirectorySystem n δ) (a : ℕ) : s.setBlock a (s.blocks a)=s := by
  rw [setBlock,Function.update_eq_self]

theorem same_setBlock_self (hkinds : kinds x.queue=kinds (s.blocks a).queue)
    (hsilent : (s.blocks a).Silent x) : Same s (s.setBlock a x) := by
  have hsame : Same (s.setBlock a (s.blocks a)) (s.setBlock a x) := same_setBlock hkinds hsilent
  rwa [setBlock_self] at hsame

section

variable (s) (a)

theorem sameBut_setBlock_self (x : Block n δ) : SameBut a s (s.setBlock a x) := by
  have hsame := sameBut_setBlock s a (s.blocks a) x
  rwa [setBlock_self] at hsame

theorem same_freshEntry (forwarder : Option (Fin n)) : Same s (s.freshEntry a forwarder) :=
  same_setBlock_self rfl fun _ => rfl

theorem same_getDirectoryEntry (forwarder : Option (Fin n)) : Same s (s.getDirectoryEntry a forwarder).2 := by
  rw [getDirectoryEntry]
  split_ifs
  · exact .refl s
  · exact same_freshEntry (s.setSlots _ _) a forwarder
  · exact .refl s

end

theorem Written.same (h : Written s t) : Same s t := by
  obtain ⟨nuca,blocks,rfl,-,hblocks⟩:=h
  intro a
  obtain ⟨toDram,hblock,-⟩:=hblocks a
  show kinds (blocks a).queue=_ ∧ (s.blocks a).Silent (blocks a)
  rw [hblock]
  exact ⟨rfl,fun _ => rfl⟩

theorem Follows.of_blocks (h : Follows s notes t) (hblocks : s'.blocks=t.blocks) : Follows s notes s' :=
  ⟨hblocks ▸ h.order,hblocks ▸ h.front,hblocks ▸ h.answers⟩

theorem Follows.idles (h : Follows s notes t) (hidle : ∀m∈notes',m.Idle) : Follows s (notes'++notes) t := by
  induction notes' with
  | nil => exact h
  | cons m rest ih =>
    obtain ⟨hm,hrest⟩:=forall_mem_cons.mp hidle
    exact (ih hrest).idle hm

theorem Follows.leads {f : Watched n δ (DirectorySystem n δ)} (h : Follows s notes t)
    (hf : f.Leads (Follows t)) : f.Leads fun notes' s' => Follows s (notes++notes') s' :=
  fun s' hs' => h.trans (hf s' hs')

theorem leads_idle {m : Moment n δ} {f : Unit → Watched n δ (DirectorySystem n δ)} (hm : m.Idle)
    (hf : (f ()).Leads (Follows s)) : (note m >>= f).Leads (Follows s) :=
  .note_bind fun t ht => (hf t ht).idle hm

theorem Same.leads {f : Watched n δ (DirectorySystem n δ)} (h : Same s t) (hf : f.Leads (Follows t)) :
    f.Leads (Follows s) :=
  h.follows.leads hf

theorem invalidateDirectoryEntry_blocks (h : s.invalidateDirectoryEntry a = .ok t) : t.blocks=s.blocks := by
  rw [invalidateDirectoryEntry] at h
  split_ifs at h
  cases h
  rfl

theorem same_replaceDirectoryEntry {v : ℕ} {forwarder : Option (Fin n)}
    (h : s.replaceDirectoryEntry v a forwarder = .ok t) : Same s t := by
  rw [replaceDirectoryEntry] at h
  split_ifs at h
  cases h
  exact same_freshEntry {s.setSlots _ _ with replaced:=s.replaced++[v]} a forwarder

theorem replied_of_serves {r : ShmemReq n} {rest : List (ShmemReq n)} (hqueue : (s.blocks a).queue=r::rest)
    (h : Block.Serves r (s.blocks a) x true) : Replied a s (s.setBlock a x) := by
  refine ⟨sameBut_setBlock_self s a x,by rw [setBlock_blocks_self]; exact h.kinds,?_⟩
  intro k ks hk c
  rw [hqueue] at hk
  cases hk
  rw [setBlock_blocks_self]
  by_cases ht : r.type = .nullifyReq
  · refine ⟨[],by rw [h.nullified rfl ht c,append_nil],?_⟩
    simp [ShmemReq.kind,ht]
  · obtain ⟨m,hm,hreplies⟩:=h.answered rfl ht
    refine ⟨_,hreplies c,?_⟩
    by_cases hc : r.requester=c
    · simpa [ShmemReq.kind,ht,hc] using hm
    · simp [ShmemReq.kind,ht,hc]

theorem Replied.same (h : Replied a s t) (hsame : Same t s') : Replied a s s' := by
  refine ⟨fun b hb => ?_,(hsame a).1.trans h.kinds,fun k ks hk c => ?_⟩
  · exact ⟨(hsame b).1.trans (h.others b hb).1,(h.others b hb).2.trans (hsame b).2⟩
  · obtain ⟨sent,hsent,hanswers⟩:=h.answered k ks hk c
    exact ⟨sent,((hsame a).2 c).trans hsent,hanswers⟩

theorem Replied.nextNoted {f : Watched n δ (DirectorySystem n δ)} (h : Replied a s t)
    (hqueue : (t.blocks a).queue≠[]) (hf : f.Leads (Follows (t.dequeue a))) :
    (do
      note ⟨t,.complete a⟩
      if ((t.dequeue a).blocks a).queue=[] then pure (t.dequeue a)
      else
        note ⟨t.dequeue a,.start a⟩
        f : Watched n δ _).Leads (Follows s) := by
  have hcomplete := follows_complete h hqueue
  refine .note_bind ?_
  split_ifs with hempty
  · rw [if_pos hempty] at hcomplete
    exact leads_pure hcomplete
  · rw [if_neg hempty] at hcomplete
    exact .note_bind (hcomplete.leads hf)

section

variable (s)

theorem nullifyNoted_follows (v : ℕ) (requester : Fin n) : (s.nullifyNoted v requester).Leads (Follows s) := by
  rw [nullifyNoted]
  by_cases hempty : (s.blocks v).queue=[]
  · rw [if_pos hempty]
    set queued : Block n δ := {s.blocks v with queue:=[.new .nullifyReq requester]} with hqueued
    have harrive : Follows s [⟨s,.arrive v (.new .nullifyReq requester)⟩,
        ⟨s.setBlock v queued,.start v⟩] (s.setBlock v queued) := by
      have h : Follows s (⟨s,.arrive v (.new .nullifyReq requester)⟩::_) (s.setBlock v queued) :=
        follows_arrive (sameBut_setBlock_self s v queued) (fun c => by rw [setBlock_blocks_self])
          (by rw [setBlock_blocks_self,hempty]; rfl)
      rwa [if_pos hempty] at h
    refine .note_bind (.note_bind (harrive.leads (.quiet_bind fun p hok => ?_)))
    obtain ⟨x,done⟩:=p
    have hserves := Block.processNullifyReq_serves (r:=.new .nullifyReq requester) rfl hok
    cases done with
    | false => exact leads_pure (same_setBlock hserves.kinds (hserves.waiting rfl)).follows
    | true =>
      have hreplied : Replied v (s.setBlock v queued) (s.setBlock v x) := by
        have h := replied_of_serves (s:=s.setBlock v queued) (a:=v) (x:=x)
          (by rw [setBlock_blocks_self]) (by rw [setBlock_blocks_self]; exact hserves)
        exact h.same (same_of_blocks (by simp [setBlock]))
      obtain ⟨r,hr⟩ : ∃r,x.queue=[r] := by
        have hlength := congrArg List.length hserves.kinds
        simp only [kinds,length_map] at hlength
        exact length_eq_one_iff.mp hlength
      have hcomplete := follows_complete hreplied (by rw [setBlock_blocks_self,hr]; simp)
      rw [if_pos (by rw [dequeue,setBlock_blocks_self,setBlock_blocks_self,hr]; rfl)] at hcomplete
      refine leads_idle trivial (.note_bind (leads_quiet fun t ht => hcomplete.of_blocks ?_))
      rw [invalidateDirectoryEntry_blocks ht]
      simp [dequeue,setBlock]
  · rw [if_neg hempty]
    exact .note_bind (leads_error _)

theorem ensureEntryNoted_follows (a : ℕ) (r : ShmemReq n) (forwarder : Option (Fin n)) :
    (s.ensureEntryNoted a r forwarder).Leads (Follows s) := by
  rw [ensureEntryNoted]
  refine leads_idle trivial ((same_getDirectoryEntry s a forwarder).leads ?_)
  dsimp only
  split_ifs
  · exact leads_pure (.refl _)
  · exact leads_error _
  · rw [processDirectoryEntryAllocationReqNoted]
    refine leads_idle trivial ?_
    dsimp only
    split
    · exact leads_error _
    · next v _ =>
      refine leads_idle trivial (.quiet_bind fun t ht => Same.leads ?_ (nullifyNoted_follows t v r.requester))
      exact same_replaceDirectoryEntry (s:=(DirectorySystem.getReplacementCandidates _ a).2) ht

theorem releaseNoted_idle (a : ℕ) (type : RequestType) :
    (s.releaseNoted a type).Leads fun notes t => (∀m∈notes,m.Idle) ∧ t.blocks=s.blocks := by
  rw [releaseNoted]
  split_ifs
  · refine .note_bind (leads_quiet fun t ht => ⟨?_,invalidateDirectoryEntry_blocks ht⟩)
    simp [Moment.Idle]
  · exact leads_pure ⟨by simp,rfl⟩

theorem workNoted_follows (a : ℕ) (u : ℕ → Unspecified n δ) (k : ℕ) (cached : Option δ) :
    (workNoted a u k cached s).Leads (Follows s) := by
  induction k generalizing s cached with
  | zero => exact leads_error _
  | succ k ih =>
    rw [workNoted]
    cases (s.blocks a).queue with
    | nil => exact leads_error _
    | cons r rest =>
      refine (ensureEntryNoted_follows s a r _).bind fun s₁ _ hensure => hensure.leads ?_
      refine leads_idle trivial (.quiet_bind fun p hok => ?_)
      obtain ⟨x,done⟩:=p
      cases hqueue : (s₁.blocks a).queue with
      | nil =>
        rw [Block.processFront,hqueue] at hok
        cases hok
      | cons r' rest' =>
        have hserves := Block.processFront_serves hqueue hok
        cases done with
        | false => exact leads_pure (same_setBlock_self hserves.kinds (hserves.waiting rfl)).follows
        | true =>
          simp only [if_true]
          refine (releaseNoted_idle (s₁.setBlock a x) a r.type).bind fun t _ hreleased => ?_
          obtain ⟨hidle,hblocks⟩:=hreleased
          have hreplied := (replied_of_serves hqueue hserves).same (same_of_blocks hblocks)
          have hne : (t.blocks a).queue≠[] := by
            intro hempty
            have hkinds := hserves.kinds
            rw [hblocks,setBlock_blocks_self] at hempty
            rw [hempty,hqueue] at hkinds
            cases hkinds
          exact fun s' hs' => (hreplied.nextNoted hne (ih (t.dequeue a) none) s' hs').idles hidle

end

theorem follows_handled {c : Fin n} {m : DirectoryMsg δ} {handled : Handled n δ}
    (hok : ((s.blocks a).popMessage c).handleMsgFromL2Cache c m = .ok handled)
    (hwritten : Written (s.setBlock a handled.block) t) :
    (m.request=none → Same s t) ∧ ∀type,m.request=some type →
      Follows s (⟨s,.arrive a (.new type c)⟩ ::
        if (s.blocks a).queue=[] then [⟨t,.start a⟩] else []) t := by
  obtain ⟨hkinds,hlines,-,-⟩:=Block.handleMsg_kinds hok
  have hsilent : (s.blocks a).Silent handled.block := by
    intro d
    rw [hlines,Block.popMessage]
    by_cases hd : d=c
    · subst hd
      simp [Line.replies,Line.handOver]
    · simp [hd]
  have hsame := hwritten.same
  refine ⟨fun hm => ?_,fun type hm => follows_arrive (fun b hb => ?_) ?_ ?_⟩
  · rw [hm] at hkinds
    exact (same_setBlock_self (hkinds.trans (append_nil _)) hsilent).trans hsame
  · have hothers := sameBut_setBlock_self s a handled.block b hb
    exact ⟨(hsame b).1.trans hothers.1,hothers.2.trans (hsame b).2⟩
  · have hsilent' := (hsame a).2
    rw [setBlock_blocks_self] at hsilent'
    exact hsilent.trans hsilent'
  · rw [(hsame a).1,setBlock_blocks_self,hkinds,hm]
    rfl

theorem handleMsgNoted_follows (s : DirectorySystem n δ) (c : Fin n) (a : ℕ) (u : ℕ → Unspecified n δ)
    (m : DirectoryMsg δ) : (s.handleMsgFromL2CacheNoted c a u m).Leads (Follows s) := by
  rw [handleMsgFromL2CacheNoted]
  refine leads_idle trivial ?_
  have hsame := same_getDirectoryEntry s a (u ((s.blocks a).queue.length+1)).forwarder
  obtain ⟨⟨found,s₁⟩,hget⟩ : ∃p,p=s.getDirectoryEntry a (u ((s.blocks a).queue.length+1)).forwarder:=⟨_,rfl⟩
  rw [← hget] at hsame ⊢
  refine hsame.leads ?_
  dsimp only
  split_ifs
  · exact leads_error _
  cases hm : m.request with
  | none =>
    rw [noteRequest,hm,pure_bind_eq]
    refine .quiet_bind fun handled hok => .quiet_bind fun t ht => ?_
    have hwritten : Written (s₁.setBlock a handled.block) t :=
      .of_option (o:=handled.writeBack) (fun h => by rw [h]) (fun data h => by rw [h]) ht
    refine ((follows_handled hok hwritten).1 hm).leads ?_
    cases handled.work with
    | none => exact leads_pure (.refl t)
    | some cached =>
      dsimp only
      rw [noteRequest,hm,pure_bind_eq]
      exact workNoted_follows t a u _ cached
  | some type =>
    rw [noteRequest,hm]
    refine .note_bind (.quiet_bind fun handled hok => .quiet_bind fun t ht => ?_)
    have hwritten : Written (s₁.setBlock a handled.block) t :=
      .of_option (o:=handled.writeBack) (fun h => by rw [h]) (fun data h => by rw [h]) ht
    have hfollows := (follows_handled hok hwritten).2 type hm
    have hwork : handled.work.isSome ↔ (s₁.blocks a).queue=[] :=
      (Block.handleMsg_kinds hok).2.2.1 (by rw [hm]; rfl)
    cases hcached : handled.work with
    | none =>
      rw [hcached] at hwork
      rw [if_neg fun hempty => absurd (hwork.mpr hempty) Bool.false_ne_true] at hfollows
      exact leads_pure hfollows
    | some cached =>
      rw [hcached] at hwork
      rw [if_pos (hwork.mp rfl)] at hfollows
      dsimp only
      rw [noteRequest,hm]
      exact .note_bind (hfollows.leads (workNoted_follows t a u _ cached))

theorem dramReplyNoted_follows (s : DirectorySystem n δ) (a : ℕ) (u : ℕ → Unspecified n δ) (data : δ) :
    (s.processDRAMReplyNoted a u data).Leads (Follows s) := by
  rw [processDRAMReplyNoted]
  refine leads_idle trivial ?_
  have hsame := same_getDirectoryEntry s a (u (s.blocks a).queue.length).forwarder
  obtain ⟨⟨found,s₁⟩,hget⟩ : ∃p,p=s.getDirectoryEntry a (u (s.blocks a).queue.length).forwarder:=⟨_,rfl⟩
  rw [← hget] at hsame ⊢
  refine hsame.leads ?_
  dsimp only
  split_ifs
  swap
  · exact leads_error _
  refine .quiet_bind fun x hok => .quiet_bind fun t ht => ?_
  obtain ⟨r,rest,hqueue⟩:=Block.exists_front_of_processDRAMReply hok
  obtain ⟨hqueue',hr,hanswered⟩:=Block.processDRAMReply_answered hqueue hok
  have hreplied : Replied a s₁ (s₁.setBlock a x) :=
    replied_of_serves hqueue (.of_answered (congrArg kinds hqueue') hanswered)
  have hwritten := written_of_sendDataToNUCA ht
  refine (hreplied.same hwritten.same).nextNoted ?_ (workNoted_follows _ a u _ none)
  rw [hwritten.queue,setBlock_blocks_self,hqueue',hqueue]
  exact cons_ne_nil r rest

theorem same_setLine {c : Fin n} {l : Line δ} (h : l.toCache=((s.blocks a).lines c).toCache) :
    Same s (s.setLine c a l) := by
  refine same_setBlock_self rfl fun d => ?_
  by_cases hd : d=c
  · subst hd
    simp [Line.replies,h]
  · simp [hd]

theorem same_dram (s : DirectorySystem n δ) (a : ℕ) : Same s (s.dram a) := by
  rw [dram]
  cases (s.blocks a).toDram with
  | nil => exact .refl s
  | cons m rest =>
    have htaken : Same s (s.setBlock a {s.blocks a with toDram:=rest}) := same_setBlock_self rfl fun _ => rfl
    cases m with
    | readReq => exact htaken.trans (same_of_blocks rfl)
    | writeReq data => exact htaken.trans (same_of_blocks rfl)

theorem follows_deliver {c : Fin n} {l : Line δ} {m : CacheMsg δ} {rest : List (CacheMsg δ)}
    (hbox : ((s.blocks a).lines c).toCache=m::rest) (hl : l.toCache=rest) :
    Follows s [⟨s,.deliver c a m⟩] (s.setLine c a l) := by
  have hblock : (s.setLine c a l).blocks a =
      {s.blocks a with lines:=Function.update (s.blocks a).lines c l} := setBlock_blocks_self s a _
  refine follows_of_block (sameBut_setBlock_self s a _) (by simp [DirectoryEvent.address]) ?_ ?_
    fun d => ⟨[],?_,.nil⟩
  · simp [arrived,completed,filterMap_cons,Moment.arrival,Moment.ending,hblock]
  · simp [started,completed,filterMap_cons,Moment.beginning,Moment.ending,hblock]
  · rw [hblock,append_nil]
    by_cases hd : d=c
    · subst hd
      cases hreply : m.isReply <;>
        simp [delivered,Moment.reply,Line.replies,hbox,hl,hreply]
    · simp [delivered,Moment.reply,hd,Ne.symm hd]

variable (s)

theorem stepNoted_follows (i : ProtocolStep n δ) : (s.stepNoted i).Leads (Follows s) := by
  cases i with
  | access c a exclusive =>
    refine leads_quiet fun s' hok => ?_
    obtain ⟨l,hl,hok⟩:=bind_ok hok
    cases hok
    exact (same_setLine (Line.access_toCache hl)).follows
  | store c a data =>
    refine leads_quiet fun s' hok => ?_
    cases hok
    exact (same_setLine (Line.store_toCache _ data)).follows
  | evict c a =>
    refine leads_quiet fun s' hok => ?_
    cases hok
    exact (same_setLine (Line.evict_toCache _)).follows
  | deliver c a stack =>
    rw [stepNoted]
    cases hbox : ((s.blocks a).lines c).toCache with
    | nil =>
      dsimp only
      refine leads_quiet fun s' hok => ?_
      obtain ⟨l,hl,hok⟩:=bind_ok hok
      cases hok
      refine (same_setLine ?_).follows
      rw [Line.deliver_toCache hl,hbox]
      rfl
    | cons m rest =>
      refine .note_bind (leads_quiet fun s' hok => ?_)
      obtain ⟨l,hl,hok⟩:=bind_ok hok
      cases hok
      exact follows_deliver hbox (by rw [Line.deliver_toCache hl,hbox]; rfl)
  | receive c a u =>
    rw [stepNoted]
    cases ((s.blocks a).lines c).toDirectory with
    | nil => exact leads_pure (.refl s)
    | cons m rest => exact handleMsgNoted_follows s c a u m
  | dram a =>
    refine leads_quiet fun s' hok => ?_
    cases hok
    exact (same_dram s a).follows
  | dramReply a u =>
    rw [stepNoted]
    cases s.fromDram a with
    | nil => exact leads_pure (.refl s)
    | cons data rest =>
      exact (same_of_blocks rfl : Same s {s with fromDram:=Function.update s.fromDram a rest}).leads
        (dramReplyNoted_follows _ a u data)

theorem runNoted_follows (steps : List (ProtocolStep n δ)) : (runNoted stepNoted s steps).Leads (Follows s) :=
  runNoted_leads (I:=fun _ => True) (G:=fun _ _ => True) stepNoted_result .refl
    (fun _ _ _ _ _ h h' => h.trans h') (fun _ _ _ _ _ _ => trivial)
    (fun s i _ _ => stepNoted_follows s i) trivial (along_of_forall (fun _ _ => trivial) _ _)

end DirectorySystem

theorem shapes_asked (ask : Ask) (hask : ask ≠ .nothing) :
    (∀v∈shapes (.sharer ask),v.inbox≠[] ∨ v.outbox≠[]) ∧
      ∀modified,∀v∈shapes (.owner modified ask),v.inbox≠[] ∨ v.outbox≠[] := by
  revert ask
  decide +kernel

namespace Block

variable {n : ℕ} {δ : Type} {cfg : DirectoryConfig} {b : Block n δ} {c : Fin n}

theorem holder_asked {dstate : DirectoryState} {ask : Ask} (hdstate : dstate ≠ .uncached)
    (hask : ask ≠ .nothing) : ∀v∈shapes (dstate.holder ask),v.inbox≠[] ∨ v.outbox≠[] := by
  cases dstate with
  | uncached => exact absurd rfl hdstate
  | shared => exact (shapes_asked ask hask).1
  | exclusive => exact (shapes_asked ask hask).2 false
  | modified => exact (shapes_asked ask hask).2 true

theorem Rests.asked_inFlight (h : b.Rests cfg) (hc : c∈b.entry.sharers) (hawaited : awaited b.queue≠some c)
    (hask : asked b.entry b.queue c ≠ .nothing) : (b.lines c).toCache≠[] ∨ (b.lines c).toDirectory≠[] := by
  have hdstate : b.entry.dstate ≠ .uncached := fun hu => by
    rw [h.proper.uncached.mp hu] at hc
    exact absurd hc (Finset.notMem_empty c)
  have hfits := h.fits c
  rw [DirectoryEntry.role,if_pos hc,if_neg hawaited] at hfits
  refine (holder_asked hdstate hask _ hfits).imp (fun hinbox hbox => hinbox ?_) fun houtbox hbox => houtbox ?_
  · rw [Line.shape,hbox]
    simp [live]
  · rw [Line.shape,hbox]
    rfl

theorem Rests.exists_asked (h : b.Rests cfg) {r : ShmemReq n} (hr : b.queue.head?=some r) :
    r.waitForData=true ∨ ∃c∈b.entry.sharers,awaited b.queue≠some c ∧ asked b.entry b.queue c ≠ .nothing := by
  have hasked : ∀c,asked b.entry b.queue c=r.ask b.entry c := fun c => by rw [asked,hr]
  have hawaited : awaited b.queue=if r.granted then some r.requester else none := by
    rw [awaited,hr]
    rfl
  simp only [hasked,hawaited]
  cases h.waits r hr with
  | data wait => exact Or.inl wait
  | forward c wait forwarding type dstate _ forwarder other =>
    refine Or.inr ⟨c,forwarder,?_,?_⟩
    · simp [ShmemReq.granted,ShmemReq.isForwarding,forwarding,other.symm]
    · simp [ShmemReq.ask,dstate,type,wait,ShmemReq.isForwarding,forwarding]
  | replies wait forwarding cached upgrade overflow =>
    have hgranted : r.granted=false := by
      simp [ShmemReq.granted,wait,ShmemReq.isForwarding,forwarding]
    simp only [hgranted,Bool.false_eq_true,if_false]
    obtain ⟨c,hc⟩ : b.entry.sharers.Nonempty:=
      Finset.nonempty_iff_ne_empty.mpr fun hempty => cached (h.proper.uncached.mpr hempty)
    cases hs : b.entry.dstate with
    | uncached => exact absurd hs cached
    | exclusive | modified =>
      refine Or.inr ⟨c,hc,by simp,?_⟩
      rw [ShmemReq.ask,hs]
      dsimp only
      split_ifs <;> decide
    | shared =>
      cases ht : r.type with
      | exReq | nullifyReq => exact Or.inr ⟨c,hc,by simp,by simp [ShmemReq.ask,hs,ht]⟩
      | upgradeReq =>
        obtain ⟨d,hd,hne⟩ : ∃d∈b.entry.sharers,d≠r.requester := by
          by_contra hall
          push Not at hall
          refine upgrade hs ht (Finset.eq_singleton_iff_unique_mem.mpr ⟨?_,hall⟩)
          exact hall c hc ▸ hc
        refine Or.inr ⟨d,hd,by simp,?_⟩
        by_cases hcopy : r.requester∈b.entry.sharers <;>
          simp [ShmemReq.ask,hs,ht,hne,hcopy]
      | shReq =>
        obtain ⟨d,hd,hoverflow⟩:=overflow hs ht
        exact Or.inr ⟨d,hd,by simp,by
          simp [ShmemReq.ask,hs,ht,wait,ShmemReq.isForwarding,forwarding,hoverflow]⟩

end Block

namespace DirectorySystem

variable {n : ℕ} {δ : Type} {cfg : DirectoryConfig} {s : DirectorySystem n δ} {a : ℕ}

/-- A message about the block is on its way. -/
def InFlight (s : DirectorySystem n δ) (a : ℕ) : Prop :=
  .readReq∈(s.blocks a).toDram ∨ s.fromDram a≠[] ∨
    ∃c,((s.blocks a).lines c).toCache≠[] ∨ ((s.blocks a).lines c).toDirectory≠[]

theorem Inv.inFlight (h : s.Inv cfg) (hqueue : (s.blocks a).queue≠[]) : s.InFlight a := by
  obtain ⟨r,rest,hr⟩:=exists_cons_of_ne_nil hqueue
  have hinv := h.blocks a
  have hhead : (s.blocks a).queue.head?=some r := by rw [hr]; rfl
  rcases hinv.rests.exists_asked hhead with hwait | ⟨c,hc,hawaited,hask⟩
  · have hreads := hinv.reads
    rw [awaitedReads,hhead,Option.any_some,if_pos hwait] at hreads
    by_cases hdram : s.fromDram a=[]
    · rw [hdram,length_nil,Nat.add_zero] at hreads
      obtain ⟨m,hm,hread⟩:=countP_pos_iff.mp (show 0<unread (s.blocks a).toDram by omega)
      cases m with
      | readReq => exact Or.inl hm
      | writeReq data => cases hread
    · exact Or.inr (Or.inl hdram)
  · exact Or.inr (Or.inr ⟨c,hinv.rests.asked_inFlight hc hawaited hask⟩)

/-- What the moments before a state say about the requests for a block. -/
structure Accounts (notes : List (Moment n δ)) (s : DirectorySystem n δ) (a : ℕ) : Prop where
  /-- the requests that have been begun are those that have ended and the one at the front -/
  begun : started a notes=completed a notes++(kinds (s.blocks a).queue).take 1
  order : arrived a notes=completed a notes++kinds (s.blocks a).queue
  answers : ∀c,List.Forall₂ (fun k m => CacheMsg.Answers k.1 m) (completedOf a c notes)
    (delivered a c notes++((s.blocks a).lines c).replies)
  waits : (s.blocks a).queue≠[] → s.InFlight a

/-- A request to nullify comes to an empty queue. When `processNextReqFromL2Cache` is called
there is a request to take from the queue, and the one behind it is recognised. -/
def Recognised (m : Moment n δ) : Prop :=
  match m.event with
  | .arrive a r => r.type = .nullifyReq → (m.state.blocks a).queue=[]
  | .complete a => (m.state.blocks a).queue≠[] ∧
      ∀r,(m.state.blocks a).queue.tail.head?=some r → r.type ≠ .nullifyReq
  | _ => True

theorem Orderly.recognised {starved : Prop} {m : Moment n δ} (h : Orderly starved m) : Recognised m := by
  obtain ⟨state,event⟩:=m
  cases event with
  | arrive a r => exact h.2
  | complete a =>
    refine ⟨h.2.1,fun r hr => h.2.2 r.kind ?_⟩
    rw [← kinds_tail]
    exact mem_map.mpr ⟨r,mem_of_head? hr,rfl⟩
  | lookup | allocate | replace | process | invalidate | start | deliver => trivial

/-- With a full-map directory the requests for a block are completed in the order in which they
arrived, each with one reply to its requester, and the one at the front is being worked on. No
assertion fails as long as an entry can be replaced when one is needed. -/
theorem run_requests (protocol : CoherencyProtocol) (associativity : ℕ) (setIndex pointers : ℕ → ℕ)
    (nuca : Option (NucaCache δ)) (memory : ℕ → δ) (hways : ∀c∈nuca,0 < c.associativity)
    (steps : List (ProtocolStep n δ)) :
    let s₀ := new ⟨protocol,n⟩ associativity setIndex pointers nuca memory
    (∀m∈(runNoted stepNoted s₀ steps).notes,Recognised m) ∧
    (∀s,run step s₀ steps = .ok s → ∀a,Accounts (runNoted stepNoted s₀ steps).notes s a) ∧
    (Along step Replaceable s₀ steps →
      ∃s,run step s₀ steps = .ok s ∧ ∀a,Accounts (runNoted stepNoted s₀ steps).notes s a) := by
  intro s₀
  have hnew : s₀.Inv ⟨protocol,n⟩ := inv_new ⟨protocol,n⟩ associativity setIndex pointers hways memory
  have horderly : (runNoted stepNoted s₀ steps).Meets (Orderly True) Tidy True :=
    runNoted_meets (G := fun _ _ => True) stepNoted_result
      (fun s i h _ => h.stepNoted fun _ _ _ _ _ => Or.inr trivial)
      (tidy_new _ associativity setIndex pointers nuca memory)
      (along_of_forall (fun _ _ => trivial) _ _)
  have haccounts : ∀s,run step s₀ steps = .ok s → ∀a,Accounts (runNoted stepNoted s₀ steps).notes s a := by
    intro s hs a
    have hinv : s.Inv ⟨protocol,n⟩ := run_invariant (I := fun s => s.Inv ⟨protocol,n⟩)
      (fun s i s' hs _ hok => (hs.step (fun hn => hn) (Or.inr trivial) (hs.tied le_rfl i)).of_ok hok)
      hnew (along_of_forall (G := fun _ _ => True) (fun _ _ => trivial) _ steps) hs
    rw [← runNoted_result stepNoted_result] at hs
    have hfollows := runNoted_follows _ steps s hs
    refine ⟨hfollows.front a,hfollows.order a,fun c => ?_,hinv.inFlight⟩
    obtain ⟨sent,hsent,hanswers⟩ := hfollows.answers a c
    exact hsent ▸ hanswers
  refine ⟨fun m hm => (horderly.notes m hm).recognised,haccounts,fun hsteps => ?_⟩
  obtain ⟨s,hrun,-⟩ := hnew.run_ok hsteps
  exact ⟨s,hrun,haccounts s hrun⟩

/-- The requests of two caches: the second waits in the queue while the data is fetched for the
first. -/
def twoReaders [NeZero n] : List (ProtocolStep n ℕ) :=
  [.access 0 0 false,.receive 0 0 plain,.access 1 0 false,.receive 1 0 plain,.dram 0,
    .dramReply 0 plain,.deliver 0 0 0]

theorem run_requests_twoReaders : ∃s,run step (oneEntry 2 .mesi 2) twoReaders = .ok s ∧
    completed 0 (runNoted stepNoted (oneEntry 2 .mesi 2) twoReaders).notes = [(.shReq,0)] ∧
    kinds (s.blocks 0).queue = [(.shReq,1)] ∧
    ∀a,Accounts (runNoted stepNoted (oneEntry 2 .mesi 2) twoReaders).notes s a := by
  obtain ⟨s,hrun,haccounts⟩ : ∃s,run step (oneEntry 2 .mesi 2) twoReaders = .ok s ∧
      ∀a,Accounts (runNoted stepNoted (oneEntry 2 .mesi 2) twoReaders).notes s a :=
    (run_requests .mesi 1 (fun _ => 0) (fun _ => 0) none (fun _ => 0) (fun _ h => by cases h)
      twoReaders).2.2 (by decide +kernel)
  have hdone : completed 0 (runNoted stepNoted (oneEntry 2 .mesi 2) twoReaders).notes =
      [(.shReq,0)] := by decide +kernel
  have harrived : arrived 0 (runNoted stepNoted (oneEntry 2 .mesi 2) twoReaders).notes =
      [(.shReq,0),(.shReq,1)] := by decide +kernel
  have horder := harrived.symm.trans (haccounts 0).order
  rw [hdone] at horder
  exact ⟨s,hrun,hdone,(List.cons.inj horder).2.symm,haccounts⟩

/-- The request for a second block arrives while the only entry is in use by a request. -/
def secondBlock [NeZero n] : List (ProtocolStep n ℕ) :=
  [.access 0 0 false,.receive 0 0 plain,.access 1 1 false,.receive 1 1 plain]

/-- The directory stops instead of letting the second request wait, and never answers it. -/
theorem run_secondBlock_unanswered :
    run step (oneEntry 2 .mesi 2) secondBlock = .error .assertion ∧
    arrived 1 (runNoted stepNoted (oneEntry 2 .mesi 2) secondBlock).notes = [(.shReq,1)] ∧
    completed 1 (runNoted stepNoted (oneEntry 2 .mesi 2) secondBlock).notes = [] ∧
    delivered 1 1 (runNoted stepNoted (oneEntry 2 .mesi 2) secondBlock).notes = [] := by
  decide +kernel

end DirectorySystem

end Sniper.Coherence
