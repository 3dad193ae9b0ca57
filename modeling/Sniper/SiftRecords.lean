import Sniper.SiftReader

/-! # What the reader makes of each record -/

namespace Sniper.Sift
open ByteParsers FallibleRuns

theorem pageOf_add_offsetOf (a : ℕ) : pageOf a+offsetOf a=a := Nat.div_add_mod' a pageSize

theorem offsetOf_lt (a : ℕ) : offsetOf a<pageSize := Nat.mod_lt _ (by decide)

theorem pageOf_mod (a : ℕ) : pageOf a % pageSize=0 := Nat.mul_mod_left _ _

theorem pageOf_of_aligned {base o : ℕ} (hbase : base % pageSize=0) (ho : o<pageSize) :
    pageOf (base+o)=base ∧ offsetOf (base+o)=o := by
  unfold pageOf offsetOf pageSize at *
  omega

/-- The byte that the collected code has for an address. -/
def codeAt (icache : ℕ → Option (ℕ → UInt8)) (a : ℕ) : Option UInt8 :=
  (icache (pageOf a)).map fun page => page (offsetOf a)

namespace Reader

theorem copyCode_zero (icache : ℕ → Option (ℕ → UInt8)) (rounds base offset : ℕ) :
    copyCode icache rounds base offset 0 = .ok [] := by
  cases rounds <;> rw [copyCode,if_pos rfl]

theorem copyCode_ok {icache : ℕ → Option (ℕ → UInt8)} {rounds base offset size : ℕ} {f : ℕ → UInt8}
    (hbase : base % pageSize=0) (hoffset : offset<pageSize) (hfit : base+offset+size≤2^64)
    (hrounds : size ≤ rounds) (hcode : ∀i<size,codeAt icache (base+offset+i)=some (f i)) :
    copyCode icache rounds base offset size = .ok ((List.range size).map f) := by
  induction rounds generalizing base offset size f with
  | zero =>
    obtain rfl : size=0 := by omega
    exact copyCode_zero _ _ _ _
  | succ rounds ih =>
    by_cases hsize : size=0
    · subst hsize
      exact copyCode_zero _ _ _ _
    rw [copyCode,if_neg hsize]
    have hpage : ∀o<pageSize - offset,codeAt icache (base+offset+o) =
        (icache base).map fun page => page (offset+o) := by
      intro o ho
      obtain ⟨hp,hq⟩:=pageOf_of_aligned (o:=offset+o) hbase (by omega)
      rw [codeAt,Nat.add_assoc,hp,hq]
    obtain ⟨page,hfound⟩ : ∃page,icache base=some page := by
      have hfirst := hcode 0 (by omega)
      rw [hpage 0 (by omega),Option.map_eq_some_iff] at hfirst
      obtain ⟨page,hfound,-⟩:=hfirst
      exact ⟨page,hfound⟩
    have hhere : ∀o < min size (pageSize - offset),page (offset+o)=f o := by
      intro o ho
      have := hcode o (by omega)
      rw [hpage o (by omega),hfound] at this
      exact Option.some.inj this
    have hrest : copyCode icache rounds ((base+pageSize) % 2^64) 0
        (size - min size (pageSize - offset)) = .ok ((List.range
          (size - min size (pageSize - offset))).map fun i => f (min size (pageSize - offset)+i)) := by
      by_cases hlast : size≤pageSize - offset
      · rw [Nat.min_eq_left hlast,Nat.sub_self]
        exact copyCode_zero _ _ _ _
      · rw [Nat.min_eq_right (by omega),Nat.mod_eq_of_lt (by omega)]
        refine ih (by rwa [Nat.add_mod_right]) (by decide) (by omega) (by omega) fun i hi => ?_
        rw [← hcode (pageSize - offset+i) (by omega)]
        congr 1
        omega
    simp only [hfound,hrest,ok_bind]
    congr 1
    have hsplit : size=min size (pageSize - offset)+(size - min size (pageSize - offset)) := by
      omega
    conv_rhs => rw [hsplit,List.range_add,List.map_append,List.map_map]
    congr 1
    exact List.map_congr_left fun o ho => hhere o (List.mem_range.mp ho)

theorem staticInfoInstruction_ok {r : Reader} {addr size : ℕ} {f : ℕ → UInt8} (hfit : addr+size≤2^64)
    (hcode : ∀i<size,codeAt r.icache (addr+i)=some (f i)) :
    r.staticInfoInstruction addr size = .ok ⟨addr,size,(List.range size).map f⟩ := by
  have hsum := pageOf_add_offsetOf addr
  rw [staticInfoInstruction,copyCode_ok (f:=f) (pageOf_mod addr) (offsetOf_lt addr)
    (by omega) le_rfl (by rwa [hsum])]
  rfl

theorem codeAt_storeCode (e : Surroundings) (icache : ℕ → Option (ℕ → UInt8)) {base offset : ℕ}
    {data : List UInt8} (hbase : base % pageSize=0) (hfit : offset+data.length≤pageSize) {i : ℕ}
    (hi : i<data.length) :
    codeAt (storeCode e icache base offset data) (base+offset+i)=some (data.getD i 0) := by
  obtain ⟨hp,hq⟩:=pageOf_of_aligned (o:=offset+i) hbase (by omega)
  rw [codeAt,Nat.add_assoc,hp,hq,storeCode,Function.update_self,Option.map_some]
  dsimp only
  rw [if_pos (by omega),Nat.add_sub_cancel_left]

theorem readVariable_zero (e : Surroundings) (rounds address : ℕ) (icache : ℕ → Option (ℕ → UInt8)) :
    Parses (readVariable e rounds address 0 icache) [] icache := by
  have hstop : readVariable e rounds address 0 icache=pure icache := by
    cases rounds <;> rw [readVariable,if_pos rfl]
  rw [hstop]
  exact Parses.pure icache

section FirstPart

variable {e : Surroundings} {rounds address part : ℕ} {data : List UInt8}
  {icache icache' : ℕ → Option (ℕ → UInt8)}

theorem codeAt_firstPart (hpart : part=min data.length (pageSize - offsetOf address)) {i : ℕ} (hi : i<part) :
    codeAt (storeCode e icache (pageOf address) (offsetOf address) (data.take part)) (address+i) =
      some (data.getD i 0) := by
  have hoff := offsetOf_lt address
  have htake : (data.take part).length=part := by
    rw [List.length_take]
    omega
  have hfit : offsetOf address+(data.take part).length≤pageSize := by omega
  have hstore := codeAt_storeCode e icache (pageOf_mod address) hfit (htake.symm ▸ hi)
  rw [pageOf_add_offsetOf] at hstore
  rw [hstore]
  simp only [List.getD_eq_getElem?_getD,List.getElem?_take,hi,if_true]

theorem readVariable_round (hpart : part=min data.length (pageSize - offsetOf address)) (hne : data.length≠0)
    (h : Parses (readVariable e rounds ((pageOf address+pageSize) % 2^64) (data.length - part)
      (storeCode e icache (pageOf address) (offsetOf address) (data.take part))) (data.drop part) icache') :
    Parses (readVariable e (rounds+1) address data.length icache) data icache' := by
  have htake : (data.take part).length=part := by
    rw [List.length_take]
    omega
  rw [readVariable,if_neg hne]
  conv => arg 2; rw [← List.take_append_drop part data]
  refine (Parses.bytes_of_length (htake.trans hpart)).bind ?_
  rw [htake]
  exact h

end FirstPart

theorem readVariable_parses (e : Surroundings) {rounds address : ℕ} {data : List UInt8}
    (icache : ℕ → Option (ℕ → UInt8)) (hfit : address+data.length≤2^64) (hrounds : data.length ≤ rounds) :
    ∃icache',Parses (readVariable e rounds address data.length icache) data icache' ∧
      (∀i<data.length,codeAt icache' (address+i)=some (data.getD i 0)) ∧
      ∀p<pageOf address,icache' p=icache p := by
  induction rounds generalizing address data icache with
  | zero =>
    obtain rfl : data=[]:=List.length_eq_zero_iff.mp (by omega)
    exact ⟨icache,readVariable_zero e _ _ icache,by simp,fun _ _ => rfl⟩
  | succ rounds ih =>
    by_cases hempty : data.length=0
    · obtain rfl:=List.length_eq_zero_iff.mp hempty
      exact ⟨icache,readVariable_zero e _ _ icache,by simp,fun _ _ => rfl⟩
    have hsum := pageOf_add_offsetOf address
    have hoff := offsetOf_lt address
    obtain ⟨part,hpart⟩ : ∃part,part=min data.length (pageSize - offsetOf address):=⟨_,rfl⟩
    have hdrop : (data.drop part).length=data.length - part := List.length_drop
    set stored := storeCode e icache (pageOf address) (offsetOf address) (data.take part) with hstored
    have hfirst : ∀i<part,codeAt stored (address+i)=some (data.getD i 0) :=
      fun i hi => codeAt_firstPart hpart hi
    have hlow : ∀p<pageOf address,stored p=icache p := fun p hp =>
      Function.update_of_ne (by omega) _ _
    by_cases hlast : data.length≤pageSize - offsetOf address
    · have hall : part=data.length := by omega
      refine ⟨stored,readVariable_round hpart hempty ?_,fun i hi => hfirst i (hall ▸ hi),hlow⟩
      rw [← hstored,hall,List.drop_length,Nat.sub_self]
      exact readVariable_zero e _ _ stored
    · have hall : part=pageSize - offsetOf address := by omega
      have hnext : (pageOf address+pageSize) % 2^64=address+part := by
        rw [Nat.mod_eq_of_lt (by omega)]
        omega
      have hpage : pageOf (address+part)=pageOf address+pageSize := by
        have := pageOf_mod address
        rw [show address+part=pageOf address+pageSize+0 by omega]
        exact (pageOf_of_aligned (by rw [Nat.add_mod_right]; exact this) (by decide)).1
      have hfit' : address+part+(data.drop part).length≤2^64 := by omega
      obtain ⟨icache',hparse,hcode,hframe⟩:=ih stored hfit' (by omega)
      rw [hdrop,← hnext] at hparse
      refine ⟨icache',readVariable_round hpart hempty hparse,fun i hi => ?_,fun p hp => ?_⟩
      · by_cases hip : i<part
        · rw [← hfirst i hip,codeAt,codeAt]
          have hsame : pageOf (address+i)=pageOf address := by
            rw [show address+i=pageOf address+(offsetOf address+i) by omega]
            exact (pageOf_of_aligned (pageOf_mod address) (by omega)).1
          rw [hsame,hframe _ (by rw [hpage]; unfold pageSize; omega)]
        · have := hcode (i - part) (by omega)
          rw [show address+part+(i - part)=address+i by omega] at this
          rw [this]
          simp only [List.getD_eq_getElem?_getD,List.getElem?_drop]
          rw [show part+(i - part)=i by omega]
      · rw [hframe p (by rw [hpage]; omega),hlow p hp]

section Records

variable {e : Surroundings} {r r' r'' : Reader} {t : RecOtherType} {size : ℕ}
  {body bs cs : List UInt8}

theorem run_readRecord (hsize : size<2^32) (rest : List UInt8) :
    (r.readRecord e).run (otherHeader t size++rest)=(r.readOther e size (some t)).run rest := by
  have hcode : t.code<256^1 := by simpa using t.code_lt
  rw [readRecord,otherHeader,List.append_assoc,List.append_assoc]
  refine ((Parses.word _ (by decide)).run_bind _ _).trans (((Parses.word _ hcode).run_bind _ _).trans
    (((Parses.word _ (by norm_num; omega)).run_bind _ _).trans ?_))
  rw [RecOtherType.ofCode_code]

/-- The loop of `Read` passes over the bytes and goes on with another reader state. -/
def Skips (e : Surroundings) (r : Reader) (bs : List UInt8) (r' : Reader) : Prop :=
  ∃k≤bs.length,∀n inst rest,
    (readLoop e (n+k) inst r).run (bs++rest)=(readLoop e n inst r').run rest

theorem Skips.refl (e : Surroundings) (r : Reader) : Skips e r [] r := ⟨0,le_rfl,fun _ _ _ => rfl⟩

theorem Skips.trans (h : Skips e r bs r') (h' : Skips e r' cs r'') : Skips e r (bs++cs) r'' := by
  obtain ⟨k,hk,hloop⟩:=h
  obtain ⟨k',hk',hloop'⟩:=h'
  refine ⟨k'+k,by rw [List.length_append]; omega,fun n inst rest => ?_⟩
  rw [← Nat.add_assoc,List.append_assoc,hloop,hloop']

theorem readLoop_record {n : ℕ} {inst : Instruction} {rest : List UInt8} (hend : r.seenEnd=false)
    (hsize : size<2^32) :
    (readLoop e (n+1) inst r).run (otherHeader t size++rest) =
      (r.readOther e size (some t)).run rest >>= fun x =>
        (match x.1.1 with
          | some b => pure (b,inst,x.1.2)
          | none => readLoop e n inst x.1.2 : Input (Bool × Instruction × Reader)).run x.2 := by
  rw [readLoop,hend,← run_readRecord hsize]
  rfl

theorem skips_record (hend : r.seenEnd=false) (hsize : size<2^32)
    (h : Parses (r.readOther e size (some t)) body (none,r')) : Skips e r (otherHeader t size++body) r' := by
  refine ⟨1,?_,fun n inst rest => ?_⟩
  · simp only [otherHeader,List.length_append,length_littleEndian]
    omega
  · rw [List.append_assoc,readLoop_record hend hsize,h]
    rfl

end Records

section Kinds

variable {e : Surroundings} {r : Reader}

theorem parses_word {n x : ℕ} (h : x<256^n) : Parses (word n) (littleEndian n x) x := Parses.word _ h

theorem parses_byte (x : UInt8) : Parses (word 1) (littleEndian 1 x.toNat) x.toNat :=
  parses_word (by simpa using x.toNat_lt)

theorem parses_word64 (x : UInt64) : Parses (word 8) (word64 x) x.toNat :=
  parses_word (by have := x.toNat_lt; norm_num; omega)

theorem parses_word32 (x : UInt32) : Parses (word 4) (littleEndian 4 x.toNat) x.toNat :=
  parses_word (by have := x.toNat_lt; norm_num; omega)

theorem parses_announced (s : List UInt8) :
    Parses readString (Writer.announced s) ((s++[0]).take ((s.length+1) % 2^16)) := by
  refine (parses_word ?_).bind (Parses.bytes_of_length ?_)
  · norm_num
    omega
  · rw [List.length_take,List.length_append,List.length_singleton]
    exact Nat.min_eq_left (Nat.mod_le _ _)

theorem assert_parses {b : Bool} (h : b=true) : Parses (assert b) [] () := Parses.require h

section

variable (hend : r.seenEnd=false)
include hend

theorem skips_icache (code : ℕ → UInt8) {base : ℕ} (hbase : base<2^64) :
    ∃page : ℕ → UInt8,(∀o<pageSize,page o=code (base+o)) ∧
      Skips e r (Writer.icacheRecord code base)
        {r with icache:=Function.update r.icache base (some page)} := by
  set data := (List.range pageSize).map fun i => code (base+i) with hdata
  have hlength : data.length=pageSize := by rw [hdata,List.length_map,List.length_range]
  refine ⟨fun i => data.getD i 0,fun o ho => ?_,?_⟩
  · dsimp only
    rw [List.getD_eq_getElem?_getD,hdata,List.getElem?_map,List.getElem?_range ho]
    rfl
  · rw [Writer.icacheRecord,List.append_assoc]
    exact skips_record hend (by decide) ((assert_parses (by decide)).bind_nil
      ((parses_word (by norm_num; omega)).bind
        ((Parses.bytes_of_length hlength).bind_last (Parses.pure _))))

theorem skips_icacheVariable {address : ℕ} {data : List UInt8}
    (hfit : address+data.length≤2^64) (hsmall : data.length<16)
    (haddress : address<2^64) :
    ∃icache,(∀i<data.length,codeAt icache (address+i)=some (data.getD i 0)) ∧
      Skips e r (otherHeader .icacheVariable (8+data.length)++littleEndian 8 address++data)
        {r with icache} := by
  obtain ⟨icache,hparse,hcode,-⟩:=readVariable_parses e r.icache hfit le_rfl
  refine ⟨icache,hcode,?_⟩
  have hsize : minus (8+data.length) 8=data.length := by
    unfold minus
    omega
  rw [List.append_assoc]
  refine skips_record hend (by omega) ((parses_word (by norm_num; omega)).bind ?_)
  rw [hsize]
  exact hparse.bind_last (Parses.pure _)

theorem skips_logical2Physical {vp : ℕ} (hvp : vp<2^64) (pp : UInt64) :
    Skips e r (otherHeader .logical2Physical 16++littleEndian 8 vp++word64 pp)
      {r with vcache:=Function.update r.vcache vp (some pp.toNat)} := by
  rw [List.append_assoc]
  exact skips_record hend (by decide) ((assert_parses rfl).bind_nil
    ((parses_word (by norm_num; omega)).bind ((parses_word64 pp).bind_last (Parses.pure _))))

theorem skips_cacheOnly (icount : UInt8) (type : CacheOnlyType) (eip address : UInt64) :
    Skips e r (otherHeader .cacheOnly 18++(littleEndian 1 icount.toNat ++
      (littleEndian 1 type.code++(word64 eip++word64 address)))) r := by
  have htype : type.code<256^1 := by cases type <;> decide
  exact skips_record hend (by decide) ((assert_parses rfl).bind_nil
    ((parses_byte icount).bind ((parses_word htype).bind ((parses_word64 eip).bind
      ((parses_word64 address).bind_last (Parses.pure _))))))

theorem skips_output (fd : UInt8) (data : ℕ → UInt8) {size : ℕ} (hpos : 0<size) (hlt : 1+size<2^32) :
    Skips e r (otherHeader .output ((1+size) % 2^32)++(littleEndian 1 fd.toNat ++
      (List.range size).map data)) r := by
  rw [Nat.mod_eq_of_lt hlt]
  exact skips_record hend hlt ((assert_parses (decide_eq_true (by omega))).bind_nil
    ((parses_byte fd).bind ((Parses.bytes_of_length (by simp)).bind_last (Parses.pure _))))

theorem readLoop_output_fails {size : ℕ} (hlt : size<2^32) (hbad : ¬ (0<size ∧ 1+size<2^32)) (n : ℕ)
    (inst : Instruction) (rest : List UInt8) :
    (readLoop e (n+1) inst r).run (otherHeader .output ((1+size) % 2^32)++rest) = .error .assertion := by
  have hfails : Fails (r.readOther e ((1+size) % 2^32) (some .output)) [] .assertion :=
    require_fails (decide_eq_false (by omega)) _ _
  rw [readLoop_record hend (by omega),← List.nil_append rest,hfails]
  rfl

theorem skips_routineChange (event : RoutineOpType) (eip esp callEip : UInt64) :
    Skips e r (otherHeader .routineChange 25++(littleEndian 1 event.code++(word64 eip ++
      (word64 esp++word64 callEip)))) r := by
  have hevent : event.code<256^1 := by cases event <;> decide
  exact skips_record hend (by decide) ((assert_parses rfl).bind_nil
    ((parses_word hevent).bind ((parses_word64 eip).bind ((parses_word64 esp).bind
      ((parses_word64 callEip).bind_last (Parses.pure _))))))

theorem skips_routineAnnounce (eip : UInt64) (name imgname : List UInt8) (offset : UInt64)
    (line column : UInt32) (filename : List UInt8) :
    Skips e r (Writer.routineAnnounceRecord eip name imgname offset line column filename) r := by
  exact skips_record hend (by omega) ((parses_word64 eip).bind ((parses_announced name).bind
    ((parses_announced imgname).bind ((parses_word64 offset).bind ((parses_word32 line).bind
      ((parses_word32 column).bind ((parses_announced filename).bind_last (Parses.pure _))))))))

theorem skips_isaChange (newIsa : UInt32) :
    Skips e r (otherHeader .isaChange 4++littleEndian 4 newIsa.toNat)
      {r with isa:=newIsa.toNat} := by
  exact skips_record hend (by decide) ((assert_parses rfl).bind_nil
    ((parses_word32 newIsa).bind_last (Parses.pure _)))

theorem readLoop_end (n : ℕ) (inst : Instruction) :
    (readLoop e (n+1) inst r).run (otherHeader .traceEnd 0) =
      .ok ((false,inst,{r with seenEnd:=true}),[]) := by
  have hbody : Parses (r.readOther e 0 (some .traceEnd)) [] (some false,{r with seenEnd:=true}) :=
    (assert_parses rfl).bind_nil (Parses.pure _)
  rw [← List.append_nil (otherHeader .traceEnd 0),readLoop_record hend (by decide),← List.append_nil [],
    hbody]
  rfl

end

end Kinds

end Reader

/-- An instruction that the format has room for: its size, the number of its data addresses,
that it is executed unless it is predicated, and that it does not reach over the top of the
address space. -/
structure Encodable (c : InstructionCall) : Prop where
  size_pos : 1 ≤ c.size.toNat
  size_le : c.size.toNat≤15
  addresses_le : c.addresses.length≤2
  executed : c.isPredicate=false → c.executed=true
  fits : c.addr.toNat+c.size.toNat≤2^64

theorem Encodable.lastByte {c : InstructionCall} (h : Encodable c) :
    (c.addr.toNat+c.size.toNat+(2^64 - 1)) % 2^64=c.addr.toNat+c.size.toNat - 1 := by
  have hpos := h.size_pos
  have hfits := h.fits
  omega

namespace Reader

/-- The fields that the record of the instruction stands for. -/
def fieldsOf (c : InstructionCall) : Fields :=
  ⟨c.addr.toNat,c.size.toNat,c.addresses.length,c.isBranch,c.taken,c.isPredicate,c.executed⟩

theorem bit_eq {x i : ℕ} {b : Bool} (h : x / 2^i % 2=b.toNat) : bit x i=b := by
  rw [bit,h]
  cases b <;> rfl

theorem simple_parses {c : InstructionCall} (h : Encodable c) (hpred : c.isPredicate=false) {x : ℕ}
    (hx : x=c.size.toNat+16*c.addresses.length+64*c.isBranch.toNat + 128*c.taken.toNat) : UInt8.ofNat x≠0 ∧
      Parses (readFields c.addr.toNat (UInt8.ofNat x)) (littleEndian 1 x) (fieldsOf c) := by
  have hpos := h.size_pos
  have hle := h.size_le
  have hlen := h.addresses_le
  have hb := c.isBranch.toNat_le
  have ht := c.taken.toNat_le
  have hbyte : (UInt8.ofNat x).toNat=x := UInt8.toNat_ofNat_of_lt' (by rw [UInt8.size]; omega)
  refine ⟨fun hzero => ?_,?_⟩
  · have hnat := congrArg UInt8.toNat hzero
    rw [hbyte,UInt8.toNat_zero] at hnat
    omega
  · rw [readFields,if_pos (by rw [hbyte]; omega)]
    refine (parses_word (by rw [pow_one]; omega)).bind_last ?_
    have hfields : (⟨c.addr.toNat,x % 16,x / 16 % 4,bit x 6,bit x 7,false,true⟩ : Fields) =
        fieldsOf c := by
      rw [fieldsOf,bit_eq (b:=c.isBranch) (by omega),bit_eq (b:=c.taken) (by omega),hpred,h.executed hpred,
        show x % 16=c.size.toNat by omega,show x / 16 % 4=c.addresses.length by omega]
    rw [hfields]
    exact Parses.pure _

theorem extended_parses {c : InstructionCall} (h : Encodable c) (lastAddress : ℕ) {flags : ℕ}
    (hflags : flags=c.addresses.length+4*c.isBranch.toNat+8*c.taken.toNat +
      16*c.isPredicate.toNat+32*c.executed.toNat) : UInt8.ofNat (16*c.size.toNat)≠0 ∧
      Parses (readFields lastAddress (UInt8.ofNat (16*c.size.toNat)))
        (littleEndian 1 (16*c.size.toNat)++(littleEndian 1 flags++word64 c.addr)) (fieldsOf c) := by
  have hpos := h.size_pos
  have hle := h.size_le
  have hlen := h.addresses_le
  have hb := c.isBranch.toNat_le
  have ht := c.taken.toNat_le
  have hp := c.isPredicate.toNat_le
  have he := c.executed.toNat_le
  have hbyte : (UInt8.ofNat (16*c.size.toNat)).toNat=16*c.size.toNat :=
    UInt8.toNat_ofNat_of_lt' (by rw [UInt8.size]; omega)
  refine ⟨fun hzero => ?_,?_⟩
  · have hnat := congrArg UInt8.toNat hzero
    rw [hbyte,UInt8.toNat_zero] at hnat
    omega
  · rw [readFields,if_neg (by rw [hbyte]; omega)]
    refine (parses_word (by rw [pow_one]; omega)).bind ((parses_word (by rw [pow_one]; omega)).bind
      ((parses_word64 c.addr).bind_last ?_))
    have hfields : (⟨c.addr.toNat,16*c.size.toNat / 16,flags % 4,bit flags 2,bit flags 3,bit flags 4,
        bit flags 5⟩ : Fields)=fieldsOf c := by
      rw [fieldsOf,bit_eq (b:=c.isBranch) (by omega),bit_eq (b:=c.taken) (by omega),
        bit_eq (b:=c.isPredicate) (by omega),bit_eq (b:=c.executed) (by omega),
        show flags % 4=c.addresses.length by omega,Nat.mul_div_cancel_left _ (by decide)]
    rw [hfields]
    exact Parses.pure _

theorem instructionRecord_parses {c : InstructionCall} (h : Encodable c) (lastAddress : ℕ) :
    ∃byte rest,Writer.instructionRecord lastAddress c=byte::rest ∧ byte≠0 ∧
      Parses (readFields lastAddress byte) (Writer.instructionRecord lastAddress c) (fieldsOf c) := by
  unfold Writer.instructionRecord
  split_ifs with hsimple
  · obtain ⟨rfl,hpred⟩:=hsimple
    obtain ⟨hne,hparse⟩:=simple_parses h hpred rfl
    exact ⟨_,_,rfl,hne,hparse⟩
  · obtain ⟨hne,hparse⟩:=extended_parses h lastAddress rfl
    rw [← List.append_assoc] at hparse
    exact ⟨_,_,rfl,hne,hparse⟩

theorem parses_addresses (as : List UInt64) :
    Parses (readMany (UInt64.ofNat <$> word 8) as.length) (as.flatMap word64) as := by
  refine Parses.many (fun a => ?_) as
  have hparse := (parses_word64 a).map UInt64.ofNat
  rwa [UInt64.ofNat_toNat] at hparse

theorem readLoop_instruction {e : Surroundings} {r r' : Reader} {c : InstructionCall} {inst' : Instruction}
    (h : Encodable c) (hend : r.seenEnd=false)
    (hdeliver : r.deliver (fieldsOf c) c.addresses = .ok (inst',r')) (n : ℕ) (inst : Instruction)
    (rest : List UInt8) : (readLoop e (n+1) inst r).run
      (Writer.instructionRecord r.lastAddress c++c.addresses.flatMap word64++rest) =
      .ok ((true,inst',r'),rest) := by
  obtain ⟨byte,tail,hrecord,hne,hfields⟩:=instructionRecord_parses h r.lastAddress
  have hparse : Parses (r.readInstruction byte)
      (Writer.instructionRecord r.lastAddress c++c.addresses.flatMap word64) (inst',r') := by
    refine hfields.bind ((Parses.require (decide_eq_true h.addresses_le)).bind_nil
      ((parses_addresses c.addresses).bind_last ?_))
    intro rest
    rw [hdeliver]
    rfl
  have hinput : Writer.instructionRecord r.lastAddress c++c.addresses.flatMap word64++rest =
      byte::(tail++c.addresses.flatMap word64++rest) := by
    rw [hrecord]
    rfl
  rw [readLoop,hend,if_neg Bool.false_ne_true,StateT.run_bind,hinput,run_peek]
  show ((if byte=0 then _ else _ : Input (Bool × Instruction × Reader))).run _=_
  rw [if_neg hne,StateT.run_bind,← hinput,hparse]
  rfl

end Reader

end Sniper.Sift
