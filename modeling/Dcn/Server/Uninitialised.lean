import Dcn.Server.Effects
import Dcn.Wire.Codec

/-! What dcn_async_worker makes of its uninitialised locals (server.c).

The local packets `pack` and `answer` have contents before they are assigned. A
packet on the stack has a pointer to its data, and memory reads as something
where it points; packet_deserial assigns the fields one by one and may stop in
between. Two runs that differ in these contents alone are compared by the state
they leave, the blocks they push and what they do with the two data pointers.
-/

set_option autoImplicit false

namespace Dcn

structure RawPacket where
  packtype : PacketType
  fromOs : UInt8
  fromUid : UInt64
  toUid : UInt64
  travFuid : UInt64
  travTuid : UInt64
  muid : UInt64
  cmuid : UInt64
  data : Option Nat
  dsize : Nat

/-- The bytes that an address and a size read as. -/
abbrev Memory := Nat → Nat → Block

structure Stack where
  pack : RawPacket
  answer : RawPacket

inductive PointerUse where
  | realloc (data : Option Nat) (size : Nat)
  | copy (data : Option Nat) (size : Nat)
  | free (data : Option Nat)
  deriving DecidableEq, Repr

structure WorkerOutcome where
  server : Server
  pushed : List (Conn × Block)
  used : List PointerUse

def RawPacket.read (p : RawPacket) (mem : Memory) : Packet where
  packtype := p.packtype
  fromOs := p.fromOs
  fromUid := p.fromUid
  toUid := p.toUid
  travFuid := p.travFuid
  travTuid := p.travTuid
  muid := p.muid
  cmuid := p.cmuid
  data := match p.data with
    | none => []
    | some ptr => mem ptr p.dsize

/-- packet_deserial with what it leaves in `*out`: it may return false before it
assigns anything, or with all assigned but the data pointer. The memory for the
data is at `fresh`. -/
def packetDeserialInto (fresh : Nat) (out : RawPacket) (data : Block) : Bool × RawPacket :=
  if data.length < packetGeneralOfs then (false, out)
  else
    let dataSize := Bytes.field 53 8 data
    let out := { out with
      fromUid := .ofNat (Bytes.field 0 8 data)
      toUid := .ofNat (Bytes.field 8 8 data)
      travFuid := .ofNat (Bytes.field 16 8 data)
      travTuid := .ofNat (Bytes.field 24 8 data)
      muid := .ofNat (Bytes.field 32 8 data)
      cmuid := .ofNat (Bytes.field 40 8 data)
      packtype := .ofNat (Bytes.field 48 4 data)
      fromOs := .ofNat (Bytes.field 52 1 data)
      dsize := dataSize }
    if (data.length + (sizeBound - dataSize)) % sizeBound ≠ packetGeneralOfs then (false, out)
    else (true, { out with data := some fresh })

def deserialMemory (mem : Memory) (fresh : Nat) (data : Block) : Memory :=
  if (packetDeserial data).isSome then
    Function.update mem fresh fun size => (data.drop packetGeneralOfs).take size
  else mem

/-- The uses of the data pointers on the exit that is taken. The broadcast loop
copies the data once for each slot with another key. -/
def pointerUses (dcnClients : Map UInt64 Conn) (pack answer : RawPacket) : List PointerUse :=
  let isBroadcast := pack.packtype = .broadcast ∨ pack.packtype = .sigBroadcast
  let copies := (dcnClients.entries.filter fun e => e.1 ≠ pack.fromUid).map fun _ =>
    PointerUse.copy pack.data pack.dsize
  if pack.fromUid = pack.toUid then [.realloc answer.data 4, .free pack.data]
  else if pack.toUid = 0 ∧ pack.packtype = .ping then []
  else if pack.toUid = 0 ∧ isBroadcast then copies ++ [.free pack.data]
  else if mapIn dcnClients pack.toUid then
    if isBroadcast then copies ++ [.free pack.data] else [.copy pack.data pack.dsize, .free pack.data]
  else [.free pack.data]

def Effect.pushed : Effect → Option (Conn × Block)
  | .push target pack => some (target, packetSerial pack)
  | .changeClimod _ _ => none

section Worker

variable (mem : Memory) (fresh : Nat) (freed : Conn → Client) (ok : Conn → Bool) (s : Server) (cli : Conn) (input : Block)

def Stack.locals (stack : Stack) : Locals where
  pack := (packetDeserialInto fresh stack.pack input).2.read (deserialMemory mem fresh input)
  answer := stack.answer.read (deserialMemory mem fresh input)
  freed := freed

def workOn (stack : Stack) : WorkerOutcome :=
  let locals := stack.locals mem fresh freed input
  let handled := handlePacket locals ok s cli locals.pack
  { server := handled.1
    pushed := handled.2.filterMap Effect.pushed
    used := pointerUses (register locals s cli locals.pack.fromUid) (packetDeserialInto fresh stack.pack input).2 stack.answer }

def Independent : Prop :=
  ∀ first second : Stack, workOn mem fresh freed ok s cli input first = workOn mem fresh freed ok s cli input second

end Worker

def headerFrom (input : Block) : UInt64 := .ofNat (Bytes.field 0 8 input)

def headerTo (input : Block) : UInt64 := .ofNat (Bytes.field 8 8 input)

def headerType (input : Block) : PacketType := .ofNat (Bytes.field 48 4 input)

section Decoding

variable {mem : Memory} {fresh : Nat} {freed : Conn → Client} {input : Block} {stack : Stack}

theorem read_decoded {pack : Packet} (decoded : packetDeserial input = some pack) :
    (packetDeserialInto fresh stack.pack input).2.read (deserialMemory mem fresh input) = pack := by
  have memory : deserialMemory mem fresh input fresh = fun size => (input.drop packetGeneralOfs).take size := by
    simp [deserialMemory, decoded]
  unfold packetDeserial at decoded
  split at decoded
  · cases decoded
  · next header =>
    dsimp only at decoded
    split at decoded
    · cases decoded
    · next size =>
      cases decoded
      simp only [packetDeserialInto, header, ↓reduceIte, size, RawPacket.read, memory]

theorem workOn_eq (ok : Conn → Bool) (s : Server) (cli : Conn) {c : Client} (isOpen : s.clients cli = some c)
    (popped : (popBlock c.readQ).2.1 = some input) :
    (workOn mem fresh freed ok (s.popped cli) cli input stack).server =
        (dcnAsyncWorker (stack.locals mem fresh freed input) ok s cli).1 ∧
      (workOn mem fresh freed ok (s.popped cli) cli input stack).pushed =
        (dcnAsyncWorker (stack.locals mem fresh freed input) ok s cli).2.filterMap Effect.pushed := by
  have next : s.nextPacket (stack.locals mem fresh freed input) cli = some (stack.locals mem fresh freed input).pack := by
    rw [Server.nextPacket, isOpen, Option.bind_some, popped, Option.map_some, Option.some.injEq]
    cases decoded : packetDeserial input with
    | none => rfl
    | some pack => exact (read_decoded decoded).symm
  rw [Server.dcnAsyncWorker_some ok next]
  exact ⟨rfl, rfl⟩

theorem into_short (fresh : Nat) (out : RawPacket) (short : input.length < packetGeneralOfs) :
    (packetDeserialInto fresh out input).2 = out := by
  rw [packetDeserialInto, if_pos short]

theorem into_header (fresh : Nat) (first second : RawPacket) (header : packetGeneralOfs ≤ input.length) :
    (packetDeserialInto fresh second input).2 =
      { (packetDeserialInto fresh first input).2 with data := (packetDeserialInto fresh second input).2.data } := by
  simp only [packetDeserialInto, if_neg (Nat.not_lt.mpr header)]
  split <;> rfl

theorem into_fields (fresh : Nat) (out : RawPacket) (header : packetGeneralOfs ≤ input.length) :
    (packetDeserialInto fresh out input).2.fromUid = headerFrom input ∧
      (packetDeserialInto fresh out input).2.toUid = headerTo input ∧
      (packetDeserialInto fresh out input).2.packtype = headerType input := by
  simp only [packetDeserialInto, if_neg (Nat.not_lt.mpr header)]
  split <;> exact ⟨rfl, rfl, rfl⟩

theorem into_data (fresh : Nat) (out : RawPacket) (header : packetGeneralOfs ≤ input.length) :
    (packetDeserialInto fresh out input).2.data = if (packetDeserial input).isSome then some fresh else out.data := by
  simp only [packetDeserialInto, packetDeserial, if_neg (Nat.not_lt.mpr header)]
  split <;> rfl

end Decoding

section Exits

variable {mem : Memory} {fresh : Nat} {freed : Conn → Client} {ok : Conn → Bool} {s : Server} {cli : Conn}
  {input : Block} {stack first second : Stack}

theorem dcnSessions_foldl_perform (s : Server) (effects : List Effect) :
    (effects.foldl (Server.perform ok) s).dcnSessions = s.dcnSessions := by
  induction effects generalizing s with
  | nil => rfl
  | cons e rest ih =>
    rw [List.foldl_cons, ih]
    cases e with
    | push => rfl
    | changeClimod target mode =>
      rw [Server.perform]
      split <;> rfl

theorem dcnSessions_workOn : (workOn mem fresh freed ok s cli input stack).server.dcnSessions =
    mapSet s.dcnSessions (packetDeserialInto fresh stack.pack input).2.fromUid
      (packetDeserialInto fresh stack.pack input).2.muid :=
  dcnSessions_foldl_perform _ _

theorem pushed_self (header : packetGeneralOfs ≤ input.length) (own : headerFrom input = headerTo input) :
    (workOn mem fresh freed ok s cli input stack).pushed =
      [(cli, packetSerial (selfAnswer (stack.locals mem fresh freed input) (stack.locals mem fresh freed input).pack))] := by
  obtain ⟨sender, target, -⟩ := into_fields fresh stack.pack header
  have same : (stack.locals mem fresh freed input).pack.fromUid = (stack.locals mem fresh freed input).pack.toUid := by
    rw [← sender, ← target] at own
    exact own
  simp only [workOn, handlePacket, respond_self same]
  rfl

theorem getLast_used (header : packetGeneralOfs ≤ input.length) (other : headerFrom input ≠ headerTo input)
    (undecoded : (packetDeserial input).isSome = false) (noPing : ¬ (headerTo input = 0 ∧ headerType input = .ping)) :
    (workOn mem fresh freed ok s cli input stack).used.getLast? = some (.free stack.pack.data) := by
  obtain ⟨sender, target, type⟩ := into_fields fresh stack.pack header
  have data := into_data fresh stack.pack header
  rw [undecoded] at data
  simp only [workOn, pointerUses, sender, target, type, if_neg other, if_neg noPing]
  rw [data]
  split
  · exact List.getLast?_concat
  · split
    · split
      · exact List.getLast?_concat
      · rfl
    · rfl

theorem handlePacket_congr {x y : Locals} (freed : y.freed = x.freed) (other : x.pack.fromUid ≠ x.pack.toUid)
    (header : y.pack = { x.pack with data := y.pack.data })
    (data : y.pack.data = x.pack.data ∨ x.pack.toUid = 0 ∧ x.pack.packtype = .ping) :
    handlePacket y ok s cli y.pack = handlePacket x ok s cli x.pack := by
  obtain ⟨p, _, _⟩ := x
  obtain ⟨q, _, _⟩ := y
  cases freed
  dsimp only at other header data ⊢
  rcases data with same | ping
  · rw [same] at header
    subst header
    simp only [handlePacket, respond, if_neg other]
    rfl
  · rw [header]
    simp only [handlePacket, respond, if_neg other, if_pos ping]
    rfl

theorem pointerUses_congr (dcnClients : Map UInt64 Conn) {p q : RawPacket} (answer answer' : RawPacket) (other : p.fromUid ≠ p.toUid)
    (header : q = { p with data := q.data }) (data : q.data = p.data ∨ p.toUid = 0 ∧ p.packtype = .ping) :
    pointerUses dcnClients q answer' = pointerUses dcnClients p answer := by
  rcases data with same | ping
  · rw [same] at header
    subst header
    simp only [pointerUses, if_neg other]
  · rw [header]
    simp only [pointerUses, if_neg other, if_pos ping]

end Exits

def RawPacket.blank : RawPacket := ⟨.request, 0, 0, 0, 0, 0, 0, 0, none, 0⟩

section Exactly

variable {mem : Memory} {fresh : Nat} {freed : Conn → Client} {ok : Conn → Bool} {s : Server} {cli : Conn} {input : Block}

/-- Two stacks tell a short block, a packet to its own sender, and one that
neither decodes nor is a ping. -/
theorem decided_of_independent (independent : Independent mem fresh freed ok s cli input) :
    packetGeneralOfs ≤ input.length ∧ headerFrom input ≠ headerTo input ∧
      ((packetDeserial input).isSome ∨ headerTo input = 0 ∧ headerType input = .ping) := by
  have header : packetGeneralOfs ≤ input.length := by
    by_contra short
    have short : input.length < packetGeneralOfs := Nat.lt_of_not_le short
    have outcomes := independent ⟨.blank, .blank⟩ ⟨{ RawPacket.blank with muid := 1 }, .blank⟩
    have sessions := congrArg (fun o => mapAt o.server.dcnSessions 0) outcomes
    simp only [dcnSessions_workOn, into_short fresh _ short] at sessions
    simp [RawPacket.blank] at sessions
  have other : headerFrom input ≠ headerTo input := by
    intro own
    have outcomes := independent ⟨.blank, .blank⟩ ⟨.blank, { RawPacket.blank with packtype := 1 }⟩
    have blocks := congrArg WorkerOutcome.pushed outcomes
    rw [pushed_self header own, pushed_self header own] at blocks
    have types := congrArg (fun pushed => pushed.map fun e => Bytes.field 48 4 e.2) blocks
    simp only [List.map_cons, List.map_nil, Packet.field_packtype] at types
    have numbers : [0 % 256 ^ 4] = [1 % 256 ^ 4] := types
    exact absurd numbers (by decide)
  refine ⟨header, other, ?_⟩
  by_contra undecided
  obtain ⟨undecoded, noPing⟩ := not_or.mp undecided
  have undecoded := Bool.eq_false_iff.mpr undecoded
  have outcomes := independent ⟨.blank, .blank⟩ ⟨{ RawPacket.blank with data := some 0 }, .blank⟩
  have last := congrArg (fun o => o.used.getLast?) outcomes
  dsimp only at last
  rw [getLast_used header other undecoded noPing, getLast_used header other undecoded noPing] at last
  cases last

theorem independent_of_decided (header : packetGeneralOfs ≤ input.length) (other : headerFrom input ≠ headerTo input)
    (how : (packetDeserial input).isSome ∨ headerTo input = 0 ∧ headerType input = .ping) :
    Independent mem fresh freed ok s cli input := by
  intro first second
  obtain ⟨sender, target, type⟩ := into_fields fresh second.pack header
  have fields := into_header fresh second.pack first.pack header
  have data : (packetDeserialInto fresh first.pack input).2.data = (packetDeserialInto fresh second.pack input).2.data ∨
      headerTo input = 0 ∧ headerType input = .ping := by
    refine how.imp_left fun decoded => ?_
    rw [into_data fresh _ header, into_data fresh _ header, if_pos decoded, if_pos decoded]
  rw [← sender, ← target] at other
  rw [← target, ← type] at data
  have uses := fun dcnClients => pointerUses_congr dcnClients second.answer first.answer other fields data
  have handled : handlePacket (first.locals mem fresh freed input) ok s cli (first.locals mem fresh freed input).pack =
      handlePacket (second.locals mem fresh freed input) ok s cli (second.locals mem fresh freed input).pack := by
    refine handlePacket_congr rfl other ?_ (data.imp_left fun same => ?_)
    · simp only [Stack.locals]
      rw [fields]
      rfl
    · simp only [Stack.locals]
      rw [fields, same]
  have senders : (first.locals mem fresh freed input).pack.fromUid = (second.locals mem fresh freed input).pack.fromUid := by
    simp only [Stack.locals]
    rw [fields]
    rfl
  simp only [workOn]
  rw [handled, senders, uses]
  rfl

end Exactly

/-- The outcome does not depend on what the locals held exactly where the block
has a whole header, is not addressed to its sender, and decodes or pings the
server. -/
theorem independent_iff (mem : Memory) (fresh : Nat) (freed : Conn → Client) (ok : Conn → Bool) (s : Server) (cli : Conn)
    (input : Block) : Independent mem fresh freed ok s cli input ↔
      packetGeneralOfs ≤ input.length ∧ headerFrom input ≠ headerTo input ∧
        ((packetDeserial input).isSome ∨ headerTo input = 0 ∧ headerType input = .ping) := by
  constructor
  · exact decided_of_independent
  · rintro ⟨header, other, how⟩
    exact independent_of_decided header other how

theorem selfAnswer_dependent : ¬ Independent (fun _ _ => []) 0 (fun _ => acceptClient 0 "" 0) (fun _ => true)
    (serverStep dcnServInit (.accept 0 4 "10.0.0.1" 7000)) 0 (packetSerial (packetInit [] 1 1 0)) := by
  intro independent
  have outcomes := independent ⟨.blank, .blank⟩ ⟨.blank, { RawPacket.blank with packtype := 1 }⟩
  have blocks := congrArg WorkerOutcome.pushed outcomes
  exact absurd blocks (by decide)

/-- The data pointer and its dsize are those of a buffer, or say that there is
none; `sizes` has the buffers that are allocated. -/
def RawPacket.Describes (sizes : Nat → Option Nat) (p : RawPacket) : Prop :=
  match p.data with
  | none => p.dsize = 0
  | some ptr => sizes ptr = some p.dsize

structure RawPacket.HasHeader (p : RawPacket) (data : Block) : Prop where
  fromUid : p.fromUid = .ofNat (Bytes.field 0 8 data)
  toUid : p.toUid = .ofNat (Bytes.field 8 8 data)
  travFuid : p.travFuid = .ofNat (Bytes.field 16 8 data)
  travTuid : p.travTuid = .ofNat (Bytes.field 24 8 data)
  muid : p.muid = .ofNat (Bytes.field 32 8 data)
  cmuid : p.cmuid = .ofNat (Bytes.field 40 8 data)
  packtype : p.packtype = .ofNat (Bytes.field 48 4 data)
  fromOs : p.fromOs = .ofNat (Bytes.field 52 1 data)
  dsize : p.dsize = Bytes.field 53 8 data

structure FailsClean (fresh : Nat) (out : RawPacket) (data : Block) : Prop where
  untouched : (packetDeserialInto fresh out data).1 = false → (packetDeserialInto fresh out data).2 = out
  described : (packetDeserialInto fresh out data).1 = false → ∀ sizes, out.Describes sizes →
    (packetDeserialInto fresh out data).2.Describes sizes

section Refused

variable {fresh : Nat} {out : RawPacket} {data : Block}

theorem into_accepted (fresh : Nat) (out : RawPacket) (data : Block) :
    (packetDeserialInto fresh out data).1 = (packetDeserial data).isSome := by
  unfold packetDeserialInto packetDeserial
  split
  · rfl
  · dsimp only
    split <;> rfl

theorem into_refused (fresh : Nat) (out : RawPacket) (header : packetGeneralOfs ≤ data.length) (refused : packetDeserial data = none) :
    (packetDeserialInto fresh out data).2.HasHeader data ∧ (packetDeserialInto fresh out data).2.data = out.data := by
  refine ⟨?_, by rw [into_data fresh out header, refused]; rfl⟩
  simp only [packetDeserialInto, if_neg (Nat.not_lt.mpr header)]
  split <;> exact ⟨rfl, rfl, rfl, rfl, rfl, rfl, rfl, rfl, rfl⟩

theorem RawPacket.HasHeader.eq {p q : RawPacket} (first : p.HasHeader data) (second : q.HasHeader data)
    (same : p.data = q.data) : p = q := by
  obtain ⟨packtype, fromOs, fromUid, toUid, travFuid, travTuid, muid, cmuid, pointer, dsize⟩ := p
  obtain ⟨packtype', fromOs', fromUid', toUid', travFuid', travTuid', muid', cmuid', pointer', dsize'⟩ := q
  obtain ⟨h1, h2, h3, h4, h5, h6, h7, h8, h9⟩ := first
  obtain ⟨k1, k2, k3, k4, k5, k6, k7, k8, k9⟩ := second
  dsimp only at *
  subst h1 h2 h3 h4 h5 h6 h7 h8 h9 k1 k2 k3 k4 k5 k6 k7 k8 k9 same
  rfl

theorem describes_refused_iff (header : packetGeneralOfs ≤ data.length) (refused : packetDeserial data = none)
    {sizes : Nat → Option Nat} (before : out.Describes sizes) :
    (packetDeserialInto fresh out data).2.Describes sizes ↔ out.dsize = Bytes.field 53 8 data := by
  obtain ⟨fields, pointer⟩ := into_refused fresh out header refused
  unfold RawPacket.Describes at *
  rw [pointer, fields.dsize]
  cases shape : out.data with
  | none =>
    simp only [shape] at before
    rw [before]
    exact eq_comm
  | some ptr =>
    simp only [shape] at before ⊢
    rw [before]
    exact Option.some_inj

end Refused

/-- A failed decode leaves its output untouched exactly where the block is
shorter than a header; otherwise it decodes, or the output had its header. -/
theorem failsClean_iff (fresh : Nat) (out : RawPacket) (data : Block) (bound : data.length < sizeBound) :
    FailsClean fresh out data ↔ data.length < packetGeneralOfs ∨
      Bytes.field 53 8 data = data.length - packetGeneralOfs ∨ out.HasHeader data := by
  by_cases short : data.length < packetGeneralOfs
  · refine iff_of_true ⟨fun _ => into_short fresh out short, fun _ sizes before => ?_⟩ (.inl short)
    rwa [into_short fresh out short]
  · have header : packetGeneralOfs ≤ data.length := Nat.le_of_not_lt short
    have decodes := Codec.isSome_deserial_iff bound
    cases decoded : packetDeserial data with
    | some pack =>
      have accepted : (packetDeserialInto fresh out data).1 ≠ false := by simp [into_accepted, decoded]
      refine iff_of_true ⟨fun failed => absurd failed accepted, fun failed => absurd failed accepted⟩ (.inr (.inl ?_))
      exact (decodes.mp (by simp [decoded])).2
    | none =>
      have failed : (packetDeserialInto fresh out data).1 = false := by simp [into_accepted, decoded]
      obtain ⟨fields, pointer⟩ := into_refused fresh out header decoded
      constructor
      · intro clean
        rw [clean.untouched failed] at fields
        exact .inr (.inr fields)
      · rintro (absent | length | had)
        · exact absurd absent short
        · exact absurd (decodes.mpr ⟨header, length⟩) (by simp [decoded])
        · have same : (packetDeserialInto fresh out data).2 = out := fields.eq had pointer
          exact ⟨fun _ => same, fun _ sizes before => by rwa [same]⟩

theorem failsClean_short : FailsClean 9 .blank [1, 2, 3] :=
  (failsClean_iff 9 .blank [1, 2, 3] (by decide)).mpr (.inl (by decide))

def lengthSeven : Block := List.replicate 53 0 ++ Bytes.little 8 7

theorem lengthSeven_touches : ¬ FailsClean 9 .blank lengthSeven := by
  intro clean
  have dsize : (7 : Nat) = 0 := congrArg RawPacket.dsize (clean.untouched (by decide))
  exact absurd dsize (by decide)

end Dcn
