import Sniper.ByteParsers
import Sniper.FallibleRuns
import Sniper.MachineValues

/-!
# Writing SIFT traces

The stream is the one in front of the optional zlib layer. Code addresses are naturals below
`2 ^ 64`.
-/

namespace Sniper.Sift
open ByteParsers FallibleRuns

def magicNumber : ℕ := 0x54464953

def pageSize : ℕ := 4096

/-- `addr & ICACHE_PAGE_MASK`. -/
def pageOf (addr : ℕ) : ℕ := addr / pageSize*pageSize

/-- `addr & ICACHE_OFFSET_MASK`. -/
def offsetOf (addr : ℕ) : ℕ := addr % pageSize

inductive RecOtherType where
  | icache
  | output
  | syscallRequest
  | syscallResponse
  | newThread
  | newThreadResponse
  | memoryRequest
  | memoryResponse
  | join
  | joinResponse
  | endResponse
  | icacheVariable
  | sync
  | syncResponse
  | logical2Physical
  | magicInstruction
  | magicInstructionResponse
  | routineChange
  | routineAnnounce
  | emu
  | emuResponse
  | fork
  | forkResponse
  | instructionCount
  | cacheOnly
  | isaChange
  | shutdown
  | traceEnd
  deriving DecidableEq,Repr

namespace RecOtherType

def code : RecOtherType → ℕ
  | icache => 0
  | output => 1
  | syscallRequest => 2
  | syscallResponse => 3
  | newThread => 4
  | newThreadResponse => 5
  | memoryRequest => 6
  | memoryResponse => 7
  | join => 8
  | joinResponse => 9
  | endResponse => 10
  | icacheVariable => 11
  | sync => 12
  | syncResponse => 13
  | logical2Physical => 14
  | magicInstruction => 15
  | magicInstructionResponse => 16
  | routineChange => 17
  | routineAnnounce => 18
  | emu => 19
  | emuResponse => 20
  | fork => 21
  | forkResponse => 22
  | instructionCount => 23
  | cacheOnly => 24
  | isaChange => 25
  | shutdown => 26
  | traceEnd => 0xff

theorem code_lt (t : RecOtherType) : t.code<256 := by
  cases t <;> decide

end RecOtherType

inductive CacheOnlyType where
  | branchTaken
  | branchNotTaken
  | memRead
  | memWrite
  | memIcache
  deriving DecidableEq,Repr

def CacheOnlyType.code : CacheOnlyType → ℕ
  | branchTaken => 0
  | branchNotTaken => 1
  | memRead => 2
  | memWrite => 3
  | memIcache => 4

inductive RoutineOpType where
  | routineEnter
  | routineExit
  | routineAssert
  deriving DecidableEq,Repr

def RoutineOpType.code : RoutineOpType → ℕ
  | routineEnter => 0
  | routineExit => 1
  | routineAssert => 2

def otherHeader (t : RecOtherType) (size : ℕ) : List UInt8 :=
  littleEndian 1 0++littleEndian 1 t.code++littleEndian 4 size

def word64 (x : UInt64) : List UInt8 := littleEndian 8 x.toNat

/-- A call of `Writer::Instruction`. The byte at each address is what `getCodeFunc` finds
there at the time of the call, and `pagemap` is what `va2pa_lookup` answers. -/
structure InstructionCall where
  addr : UInt64
  size : UInt8
  addresses : List UInt64
  isBranch : Bool
  taken : Bool
  isPredicate : Bool
  executed : Bool
  code : ℕ → UInt8
  pagemap : ℕ → UInt64

def InstructionCall.codeBytes (c : InstructionCall) : List UInt8 :=
  (List.range c.size.toNat).map fun i => c.code (c.addr.toNat+i)

/-- The calls of a writer before `End`. A C string is the list of its characters in front of
the terminating zero. -/
inductive WriterCall where
  | instruction (call : InstructionCall)
  | cacheOnly (icount : UInt8) (type : CacheOnlyType) (eip address : UInt64)
      (pagemap : ℕ → UInt64)
  | output (fd : UInt8) (data : ℕ → UInt8) (size : UInt32)
  | routineChange (event : RoutineOpType) (eip esp callEip : UInt64)
  | routineAnnounce (eip : UInt64) (name imgname : List UInt8) (offset : UInt64)
      (line column : UInt32) (filename : List UInt8)
  | isaChange (newIsa : UInt32)

structure WriterOptions where
  useCompression : Bool
  arch32 : Bool
  requiresIcachePerInsn : Bool
  sendVa2paMapping : Bool
  deriving DecidableEq

def WriterOptions.bits (o : WriterOptions) : ℕ :=
  o.useCompression.toNat+2*o.arch32.toNat+4*o.requiresIcachePerInsn.toNat +
    8*o.sendVa2paMapping.toNat

structure Writer where
  options : WriterOptions
  lastAddress : ℕ
  icache : ℕ → Bool
  va2pa : ℕ → Bool

namespace Writer

def new (options : WriterOptions) : Writer := ⟨options,0,fun _ => false,fun _ => false⟩

def header (o : WriterOptions) : List UInt8 :=
  littleEndian 4 magicNumber++littleEndian 4 0++littleEndian 8 o.bits

def icacheRecord (code : ℕ → UInt8) (base : ℕ) : List UInt8 :=
  otherHeader .icache (8+pageSize)++littleEndian 8 base ++
    (List.range pageSize).map fun i => code (base+i)

/-- The loop over the pages of an instruction, with the rounds left. -/
def sendPages (code : ℕ → UInt8) (last : ℕ) : ℕ → ℕ → (ℕ → Bool) → Except Abort (List UInt8 × (ℕ → Bool))
  | rounds,base,icache =>
    if base≤last then
      match rounds with
      | 0 => .error .unfinished
      | rounds+1 => do
        let (rest,icache') ← sendPages code last rounds ((base+pageSize) % 2^64)
          (Function.update icache base true)
        .ok ((if icache base then [] else icacheRecord code base)++rest,icache')
    else .ok ([],icache)

variable (rounds : ℕ)

/-- The code bytes that the instruction needs and that have not been sent yet. -/
def sendCode (w : Writer) (c : InstructionCall) : Except Abort (List UInt8 × (ℕ → Bool)) :=
  if w.options.requiresIcachePerInsn then
    .ok (if w.icache c.addr.toNat then []
      else otherHeader .icacheVariable (8+c.size.toNat)++littleEndian 8 c.addr.toNat ++
        c.codeBytes,Function.update w.icache c.addr.toNat true)
  else
    sendPages c.code (pageOf ((c.addr.toNat+c.size.toNat+(2^64 - 1)) % 2^64)) rounds
      (pageOf c.addr.toNat) w.icache

def sendVa2pa (pagemap : ℕ → UInt64) (w : Writer) (va : UInt64) : List UInt8 × Writer :=
  let vp := va.toNat / 4096
  if w.options.sendVa2paMapping ∧ w.va2pa vp=false ∧ pagemap vp≠0 then
    (otherHeader .logical2Physical 16++littleEndian 8 vp++word64 (pagemap vp),
      {w with va2pa:=Function.update w.va2pa vp true})
  else ([],w)

def sendVa2pas (pagemap : ℕ → UInt64) : Writer → List UInt64 → List UInt8 × Writer
  | w,[] => ([],w)
  | w,va::vas =>
    let first := sendVa2pa pagemap w va
    let rest := sendVa2pas pagemap first.2 vas
    (first.1++rest.1,rest.2)

/-- The bit fields of `Record::Instruction`, or those of `Record::InstructionExt` with the
address, in front of the data addresses. -/
def instructionRecord (lastAddress : ℕ) (c : InstructionCall) : List UInt8 :=
  if c.addr.toNat=lastAddress ∧ c.isPredicate=false then
    littleEndian 1 (c.size.toNat+16*c.addresses.length+64*c.isBranch.toNat +
      128*c.taken.toNat)
  else
    littleEndian 1 (16*c.size.toNat) ++
      littleEndian 1 (c.addresses.length+4*c.isBranch.toNat+8*c.taken.toNat +
        16*c.isPredicate.toNat+32*c.executed.toNat) ++
      word64 c.addr

def instruction (w : Writer) (c : InstructionCall) : Except Abort (List UInt8 × Writer) :=
  if 16 ≤ c.size.toNat ∨ 2<c.addresses.length then .error .assertion
  else do
    let (code,icache) ← w.sendCode rounds c
    let mapped := sendVa2pas c.pagemap {w with icache} (c.addr::c.addresses)
    .ok (code++mapped.1++instructionRecord w.lastAddress c++c.addresses.flatMap word64,
      {mapped.2 with lastAddress:=(c.addr.toNat+c.size.toNat) % 2^64})

/-- A string of `RoutineAnnounce` with its 16-bit length. -/
def announced (s : List UInt8) : List UInt8 :=
  let length := (s.length+1) % 2^16
  littleEndian 2 length++(s++[0]).take length

def routineAnnounceRecord (eip : UInt64) (name imgname : List UInt8) (offset : UInt64) (line column : UInt32)
    (filename : List UInt8) : List UInt8 :=
  let lengths := (name.length+1) % 2^16+(imgname.length+1) % 2^16 +
    (filename.length+1) % 2^16
  otherHeader .routineAnnounce (30+lengths)++(word64 eip++(announced name ++
    (announced imgname++(word64 offset++(littleEndian 4 line.toNat ++
      (littleEndian 4 column.toNat++announced filename))))))

def call (w : Writer) : WriterCall → Except Abort (List UInt8 × Writer)
  | .instruction c => w.instruction rounds c
  | .cacheOnly icount type eip address pagemap =>
    let mapped := sendVa2pas pagemap w [eip,address]
    .ok (mapped.1++(otherHeader .cacheOnly 18++(littleEndian 1 icount.toNat ++
      (littleEndian 1 type.code++(word64 eip++word64 address)))),mapped.2)
  | .output fd data size =>
    .ok (otherHeader .output ((1+size.toNat) % 2^32)++(littleEndian 1 fd.toNat ++
      (List.range size.toNat).map data),w)
  | .routineChange event eip esp callEip =>
    .ok (otherHeader .routineChange 25++(littleEndian 1 event.code++(word64 eip ++
      (word64 esp++word64 callEip))),w)
  | .routineAnnounce eip name imgname offset line column filename =>
    .ok (routineAnnounceRecord eip name imgname offset line column filename,w)
  | .isaChange newIsa => .ok (otherHeader .isaChange 4++littleEndian 4 newIsa.toNat,w)

/-- The whole trace, from the header to the record of `End`. -/
def trace (options : WriterOptions) (calls : List WriterCall) : Except Abort (List UInt8) := do
  let records ← outputs (call rounds) (.new options) calls
  .ok (header options++(records.flatten++otherHeader .traceEnd 0))

end Writer

end Sniper.Sift
