import NeuralOs.Lib.Checked
import NeuralOs.Lib.Bitmap
import NeuralOs.Lib.SlotTable

/-!
# Reassembly

No fragment makes the reassembly leave its buffers. A slot that has only seen
fragments of one message holds pieces of that message, and what it hands on when
it is full is the message.
-/

set_option autoImplicit false

namespace NeuralOs.Mesh.UdpFrame
open ByteString Checked

abbrev Mac := Vector UInt8 6

def broadcastMac : Mac := Vector.replicate 6 0xFF

structure NicConfig where
  ip : Vector UInt8 4
  mac : Mac
  deriving DecidableEq

def toBe (w n : ℕ) : Bytes := (toLe w n).reverse

def words : Bytes → List ℕ
  | a :: b :: l => (a.toNat*256+b.toNat) :: words l
  | [a] => [a.toNat*256]
  | [] => []

/-- Add the carries back into 16 bits; two rounds are enough for a sum of 32 bits. -/
def foldCarries : ℕ → ℕ → ℕ
  | 0, sum => sum
  | n+1, sum => if sum < 65536 then sum else foldCarries n (sum % 65536+sum/65536)

def ipChecksum (data : Bytes) : ℕ :=
  65535-foldCarries 3 ((words data).foldl (fun sum w => (sum+w) % 2^32) 0)

def senderIp (cfg : NicConfig) : Vector UInt8 4 :=
  if cfg.ip ≠ Vector.replicate 4 0 then cfg.ip else #v[10, 0, 2, 15]

def udpSegment (payload : Bytes) (port : UInt16) : Bytes :=
  toBe 2 42069 ++ toBe 2 port.toNat ++ toBe 2 (8+payload.length) ++ [0, 0] ++ payload

def ipHeader (cfg : NicConfig) (len : ℕ) (checksum : ℕ) : Bytes :=
  [0x45, 0] ++ toBe 2 len ++ [0, 0, 0, 0, 64, 17] ++ toBe 2 checksum ++
    (senderIp cfg).toList ++ [255, 255, 255, 255]

/-- Broadcast and unicast frames differ in the destination only. -/
def buildUdpFrame (cfg : NicConfig) (dest : Mac) (payload : Bytes) (port : UInt16) :
    Option Bytes :=
  if cfg.mac = Vector.replicate 6 0 ∨ payload = [] then none
  else
    let udp := udpSegment payload port
    let checksum := ipChecksum (ipHeader cfg (20+udp.length) 0)
    some (dest.toList ++ cfg.mac.toList ++ [0x08, 0x00] ++
      ipHeader cfg (20+udp.length) checksum ++ udp)

def buildUdpBroadcastFrame (cfg : NicConfig) (payload : Bytes) (port : UInt16) : Option Bytes :=
  buildUdpFrame cfg broadcastMac payload port

def beWord (pkt : Bytes) (i : ℕ) : Run ℕ := do
  let hi ← byteAt pkt i
  let lo ← byteAt pkt (i+1)
  .ok (hi.toNat*256+lo.toNat)

/-- One frame of the receive loop: the payload and the sender's address if the frame is a
datagram for `port`. The unicast loop skips frames to the broadcast address. -/
def udpPayload (unicast : Bool) (port : UInt16) (pkt : Bytes) : Run (Option (Bytes × Bytes)) :=
  if pkt.length < 14+20+8 then .ok none
  else do
    let dest ← sub pkt 0 6
    if unicast = true ∧ dest = broadcastMac.toList then .ok none
    else do
      let t₀ ← byteAt pkt 12
      let t₁ ← byteAt pkt 13
      if t₀ ≠ 0x08 ∨ t₁ ≠ 0x00 then .ok none
      else do
        let v ← byteAt pkt 14
        let ihl := (v &&& 0x0F).toNat*4
        if ihl < 20 ∨ pkt.length < 14+ihl+8 then .ok none
        else do
          let proto ← byteAt pkt (14+9)
          if proto ≠ 17 then .ok none
          else do
            let udp := 14+ihl
            let dport ← beWord pkt (udp+2)
            if dport ≠ port.toNat then .ok none
            else do
              let ulen ← beWord pkt (udp+4)
              if ulen < 8 ∨ pkt.length < udp+ulen then .ok none
              else do
                let srcMac ← sub pkt 6 12
                let payload ← sub pkt (udp+8) (udp+ulen)
                .ok (some (payload, srcMac))

/-! ### Safety -/

theorem safe_beWord {pkt : Bytes} {i : ℕ} (h : i+1 < pkt.length) : Safe (beWord pkt i) := by
  refine safe_bind (safe_byteAt (by omega)) fun hi _ => ?_
  exact safe_bind (safe_byteAt h) fun lo _ => safe_ok _

theorem udpPayload_safe (unicast : Bool) (port : UInt16) (pkt : Bytes) :
    Safe (udpPayload unicast port pkt) := by
  refine safe_ite (fun _ => safe_ok _) fun h42 => ?_
  refine safe_bind (safe_sub (by omega) (by omega)) fun dest _ => ?_
  refine safe_ite (fun _ => safe_ok _) fun _ => ?_
  refine safe_bind (safe_byteAt (by omega)) fun t₀ _ => ?_
  refine safe_bind (safe_byteAt (by omega)) fun t₁ _ => ?_
  refine safe_ite (fun _ => safe_ok _) fun _ => safe_bind (safe_byteAt (by omega)) fun v _ => ?_
  refine safe_ite (fun _ => safe_ok _) fun hihl => ?_
  refine safe_bind (safe_byteAt (by omega)) fun proto _ => safe_ite (fun _ => safe_ok _) fun _ => ?_
  refine safe_bind (safe_beWord (by omega)) fun dport _ => safe_ite (fun _ => safe_ok _) fun _ => ?_
  refine safe_bind (safe_beWord (by omega)) fun ulen _ => safe_ite (fun _ => safe_ok _) fun _ => ?_
  refine safe_bind (safe_sub (by omega) (by omega)) fun mac _ => ?_
  exact safe_bind (safe_sub (by omega) (by omega)) fun payload _ => safe_ok _

/-! ### The round trip -/

theorem toBe_two (n : ℕ) : toBe 2 n = [UInt8.ofNat (n/256), UInt8.ofNat n] := rfl

theorem be_value (n : ℕ) (h : n < 65536) :
    (UInt8.ofNat (n/256)).toNat*256+(UInt8.ofNat n).toNat = n := by
  simp only [UInt8.toNat_ofNat']
  omega

theorem mac_bytes (m : Mac) : ∃ a b c d e f, m.toList = [a, b, c, d, e, f] := by
  have h : m.toList.length = 6 := by simp
  match m.toList, h with
  | [a, b, c, d, e, f], _ => exact ⟨a, b, c, d, e, f, rfl⟩

theorem ip_bytes (v : Vector UInt8 4) : ∃ a b c d, v.toList = [a, b, c, d] := by
  have h : v.toList.length = 4 := by simp
  match v.toList, h with
  | [a, b, c, d], _ => exact ⟨a, b, c, d, rfl⟩

theorem udpPayload_build {cfg : NicConfig} {dest : Mac} {payload : Bytes} {port port' : UInt16}
    {frame : Bytes} (hlen : payload.length < 65528)
    (h : buildUdpFrame cfg dest payload port = some frame) (unicast : Bool) :
    udpPayload unicast port' frame =
      .ok (if (unicast = true → dest ≠ broadcastMac) ∧ port' = port then
        some (payload, cfg.mac.toList) else none) := by
  rw [buildUdpFrame] at h
  split at h
  · cases h
  obtain ⟨d₀, d₁, d₂, d₃, d₄, d₅, hd⟩ := mac_bytes dest
  obtain ⟨m₀, m₁, m₂, m₃, m₄, m₅, hm⟩ := mac_bytes cfg.mac
  obtain ⟨s₀, s₁, s₂, s₃, hs⟩ := ip_bytes (senderIp cfg)
  obtain ⟨l₁, l₀, hl⟩ : ∃ a b, toBe 2 (20+(udpSegment payload port).length) = [a, b] :=
    ⟨_, _, rfl⟩
  obtain ⟨c₁, c₀, hc⟩ : ∃ a b, toBe 2 (ipChecksum
      (ipHeader cfg (20+(udpSegment payload port).length) 0)) = [a, b] := ⟨_, _, rfl⟩
  have hsrc : toBe 2 42069 = [0xA4, 0x55] := by decide
  have hframe : frame = [d₀, d₁, d₂, d₃, d₄, d₅, m₀, m₁, m₂, m₃, m₄, m₅, 0x08, 0x00, 0x45, 0, l₁,
      l₀, 0, 0, 0, 0, 64, 17, c₁, c₀, s₀, s₁, s₂, s₃, 255, 255, 255, 255, 0xA4, 0x55,
      UInt8.ofNat (port.toNat/256), UInt8.ofNat port.toNat, UInt8.ofNat ((8+payload.length)/256),
      UInt8.ofNat (8+payload.length), 0, 0] ++ payload := by
    refine (Option.some.inj h).symm.trans ?_
    rw [ipHeader, hc, hl, hd, hm, hs, udpSegment, hsrc, toBe_two, toBe_two]
    simp
  have hsize : frame.length = 42+payload.length := by simp [hframe]; omega
  have hport : beWord frame (34+2) = .ok port.toNat := by
    rw [hframe]
    exact congrArg Except.ok (be_value port.toNat port.toNat_lt)
  have hulen : beWord frame (34+4) = .ok (8+payload.length) := by
    rw [hframe]
    exact congrArg Except.ok (be_value (8+payload.length) (by omega))
  have hpay : slice frame (34+8) (34+(8+payload.length)-(34+8)) = payload := by
    rw [hframe, show 34+(8+payload.length)-(34+8) = payload.length by omega]
    exact slice_right _ payload 0 payload.length |>.trans (by simp [slice])
  have hmac : slice frame 6 (12-6) = cfg.mac.toList := by
    rw [hframe, hm]
    rfl
  have hdest : slice frame 0 (6-0) = dest.toList := by
    rw [hframe, hd]
    rfl
  rw [udpPayload, if_neg (by omega), sub_eq (by omega) (by omega), ok_bind, hdest]
  by_cases hcast : unicast = true ∧ dest = broadcastMac
  · rw [if_pos ⟨hcast.1, congrArg Vector.toList hcast.2⟩, if_neg (by tauto)]
  rw [if_neg fun hc => hcast ⟨hc.1, Vector.toList_inj.mp hc.2⟩,
    show byteAt frame 12 = .ok 0x08 by rw [hframe]; rfl, ok_bind,
    show byteAt frame 13 = .ok 0x00 by rw [hframe]; rfl, ok_bind, if_neg (by simp),
    show byteAt frame 14 = .ok 0x45 by rw [hframe]; rfl, ok_bind]
  dsimp only
  rw [show ((0x45 : UInt8) &&& 0x0F).toNat*4 = 20 by decide, if_neg (by omega),
    show byteAt frame (14+9) = .ok 17 by rw [hframe]; rfl, ok_bind, if_neg (by simp), hport, ok_bind]
  by_cases hp : port' = port
  · subst hp
    rw [if_neg (by simp), hulen, ok_bind, if_neg (by omega), sub_eq (by omega) (by omega), ok_bind,
      sub_eq (by omega) (by omega), ok_bind, hmac, hpay, if_pos (by tauto)]
  · rw [if_pos fun h => hp (UInt16.toNat_inj.mp h.symm), if_neg (by tauto)]

end NeuralOs.Mesh.UdpFrame

/-! ## Task packets -/

namespace NeuralOs.Mesh.TaskPacket
open ByteString

structure PacketFlags where
  persist : Bool
  requireAck : Bool
  compressed : Bool
  encrypted : Bool
  reserved : UInt8
  deriving DecidableEq

def PacketFlags.new : PacketFlags := ⟨false, true, false, false, 0⟩

def taskInference : UInt8 := 1

structure AiosTaskPacket where
  clock : UInt64
  sourceId : UInt8
  destId : UInt8
  taskType : UInt8
  priority : UInt8
  tensorLen : UInt32
  paramLen : UInt32
  flags : PacketFlags
  reserved : Vector UInt8 8
  deriving DecidableEq

def AiosTaskPacket.new (clock : UInt64) (sourceId destId taskType priority : UInt8)
    (tensorLen paramLen : UInt32) (flags : PacketFlags) : AiosTaskPacket :=
  ⟨clock, sourceId, destId, taskType, priority, tensorLen, paramLen, flags, Vector.replicate 8 0⟩

def aiosMagic : ℕ := 0x41494F53

def packetHeaderSize : ℕ := 37

def flagByte (b : Bool) : UInt8 := if b then 1 else 0

def serialize (p : AiosTaskPacket) : Bytes :=
  toLe 4 aiosMagic ++ toLe 8 p.clock.toNat ++
    [p.sourceId, p.destId, p.taskType, p.priority] ++
    toLe 4 p.tensorLen.toNat ++ toLe 4 p.paramLen.toNat ++
    [flagByte p.flags.persist, flagByte p.flags.requireAck, flagByte p.flags.compressed,
      flagByte p.flags.encrypted, p.flags.reserved] ++ p.reserved.toList

def readPacket (data : Bytes) : AiosTaskPacket where
  clock := UInt64.ofNat (fromLe (slice data 4 8))
  sourceId := data.getD 12 0
  destId := data.getD 13 0
  taskType := data.getD 14 0
  priority := data.getD 15 0
  tensorLen := UInt32.ofNat (fromLe (slice data 16 4))
  paramLen := UInt32.ofNat (fromLe (slice data 20 4))
  flags := ⟨data.getD 24 0 != 0, data.getD 25 0 != 0, data.getD 26 0 != 0, data.getD 27 0 != 0,
    data.getD 28 0⟩
  reserved := Vector.ofFn fun i => data.getD (29+i) 0

def parse (data : Bytes) : Option AiosTaskPacket :=
  if data.length < packetHeaderSize then none
  else if fromLe (slice data 0 4) ≠ aiosMagic then none
  else some (readPacket data)

end NeuralOs.Mesh.TaskPacket

/-! ## Reassembly -/

namespace NeuralOs.Mesh.Fragment
open ByteString Bitmap Checked Pieces SlotTable TaskPacket UdpFrame

def fragTag : Bytes := [0x46, 0x52, 0x41, 0x47, 0x00]

def fragHeaderSize : ℕ := 5+16

def fragMaxChunk : ℕ := 1000

def fragDirectMax : ℕ := 1200

def fragMaxParts : ℕ := 1024

def fragMaxPayload : ℕ := fragMaxParts*fragMaxChunk

/-! ### Sending -/

structure Sender where
  fragId : UInt32
  cfg : NicConfig
  deriving DecidableEq

def fragment (id : UInt32) (payload : Bytes) (idx : ℕ) : Bytes :=
  fragTag ++ toLe 4 id.toNat ++ toLe 4 (pieceCount fragMaxChunk payload.length) ++ toLe 4 idx ++
    toLe 4 payload.length ++ piece fragMaxChunk payload idx

/-- The result and the frames on the wire. The broadcast and the unicast function differ in
the destination; the latter repeats frames until they are acknowledged. -/
def Sender.sendFragmented (s : Sender) (dest : Mac) (payload : Bytes) (port : UInt16) :
    Sender × Bool × List Bytes :=
  if fragMaxPayload < payload.length then (s, false, [])
  else if payload.length ≤ fragDirectMax then
    let frame := buildUdpFrame s.cfg dest payload port
    (s, frame.isSome, frame.toList)
  else
    let frames := (List.range (pieceCount fragMaxChunk payload.length)).map fun idx =>
      buildUdpFrame s.cfg dest (fragment s.fragId payload idx) port
    ({ s with fragId := s.fragId+1 }, frames.all (·.isSome), entries frames)

/-! ### Reassembly -/

structure FragReassembly where
  id : ℕ
  totalFrags : ℕ
  received : ℕ
  totalLen : ℕ
  seen : Bits
  chunks : List Bytes
  lastTick : UInt64

structure Frag where
  id : ℕ
  total : ℕ
  idx : ℕ
  len : ℕ
  data : Bytes

def fragReassemblyBudgetBytes (ramMb : ℕ) : ℕ :=
  if ramMb = 0 then 1024*1000
  else if ramMb < 1280 then 1200
  else if ramMb < 2048 then 24*1024
  else 1024*1000

def readFrag (ramMb : ℕ) (pkt : Bytes) : Run (Option Frag) :=
  if pkt.length < fragHeaderSize then .ok none
  else do
    let id ← sub pkt 5 9
    let total ← sub pkt 9 13
    let idx ← sub pkt 13 17
    let len ← sub pkt 17 21
    let (id, total, idx, len) := (fromLe id, fromLe total, fromLe idx, fromLe len)
    if total = 0 ∨ fragMaxParts < total ∨ total ≤ idx ∨ len = 0 ∨ fragMaxPayload < len then .ok none
    else if fragReassemblyBudgetBytes ramMb < len then .ok none
    else do
      let data ← sub pkt fragHeaderSize pkt.length
      if data = [] ∨ fragMaxChunk < data.length then .ok none
      else .ok (some ⟨id, total, idx, len, data⟩)

structure Scan where
  matchPos : Option ℕ
  freePos : Option ℕ
  oldestPos : Option ℕ
  oldestTick : UInt64

def scanStep (id : ℕ) (s : Scan) (slot : Option FragReassembly × ℕ) : Scan :=
  match slot with
  | (some rs, i) =>
    if rs.id = id then { s with matchPos := some i }
    else if rs.lastTick < s.oldestTick then { s with oldestPos := some i, oldestTick := rs.lastTick }
    else s
  | (none, i) => if s.freePos = none then { s with freePos := some i } else s

/-- The slot of the id, else a free one, else the oldest. -/
def slotPos (id : ℕ) (t : Slots FragReassembly) : Option ℕ :=
  let s := t.zipIdx.foldl (scanStep id) ⟨none, none, none, 0xFFFFFFFFFFFFFFFF⟩
  s.matchPos <|> s.freePos <|> s.oldestPos

inductive FragResult
  | noSlot
  | more
  | message (payload : Bytes)
  deriving DecidableEq

def reassemblyFor (f : Frag) (now : UInt64) (slot : Option FragReassembly) : FragReassembly :=
  match slot with
  | some rs =>
    if rs.id = f.id then rs else ⟨f.id, f.total, 0, f.len, fun _ => false, [], now⟩
  | none => ⟨f.id, f.total, 0, f.len, fun _ => false, [], now⟩

/-- `chunks.resize(idx + 1, Vec::new())` if it is shorter. -/
def resized (chunks : List Bytes) (idx : ℕ) : List Bytes :=
  chunks ++ List.replicate (idx+1-chunks.length) []

/-- `reserved` says whether there was memory for the data. -/
def insertFrag (f : Frag) (now : UInt64) (reserved : Bool) (t : Slots FragReassembly) :
    Run (FragResult × Slots FragReassembly) :=
  match slotPos f.id t with
  | none => .ok (.noSlot, t)
  | some pos =>
    match t[pos]? with
    | none => .error .panic
    | some slot =>
      let rs := reassemblyFor f now slot
      if 16 ≤ f.idx/64 then .error .panic
      else if rs.seen f.idx = true then .ok (.more, t.set pos (some rs))
      else
        let chunks := resized rs.chunks f.idx
        if chunks.length ≤ f.idx then .error .panic
        else if reserved = false then .ok (.more, t.set pos none)
        else
          let rs := { rs with
            seen := mark rs.seen f.idx 1
            chunks := chunks.set f.idx f.data
            received := rs.received+1
            lastTick := now }
          if rs.received = rs.totalFrags then
            if rs.chunks.flatten.length ≠ rs.totalLen then .ok (.more, t.set pos none)
            else .ok (.message rs.chunks.flatten, t.set pos none)
          else .ok (.more, t.set pos (some rs))

/-! ### Receiving -/

structure Incoming where
  frame : Bytes
  now : UInt64
  reserved : Bool

structure Rx where
  table : Slots FragReassembly
  macs : Slots (UInt8 × Bytes)

def Rx.new : Rx := ⟨vacant 16, vacant 16⟩

def peerSetMac (node : UInt8) (mac : Bytes) (s : Slots (UInt8 × Bytes)) : Slots (UInt8 × Bytes) :=
  if (lookup Prod.fst node s).isSome then modify Prod.fst node (fun _ => (node, mac)) s
  else fill (node, mac) s

def Rx.learnMac (rx : Rx) (pkt mac : Bytes) : Rx :=
  match parse pkt with
  | none => rx
  | some p => if p.sourceId = 0 then rx else { rx with macs := peerSetMac p.sourceId mac rx.macs }

/-- The loop of `recv_fragmented`. At most sixteen frames in a row are skipped because they
are no datagrams for the port. -/
def recvLoop (unicast : Bool) (ramMb : ℕ) (port : UInt16) :
    ℕ → List Incoming → Rx → Run (Option Bytes × List Incoming × Rx)
  | _, [], rx => .ok (none, [], rx)
  | 0, q, rx => .ok (none, q, rx)
  | left+1, a :: q, rx => do
    match ← udpPayload unicast port a.frame with
    | none => recvLoop unicast ramMb port left q rx
    | some (pkt, mac) =>
      let rx := if unicast then rx else rx.learnMac pkt mac
      if fragTag.isPrefixOf pkt = false then .ok (some pkt, q, rx)
      else do
        match ← readFrag ramMb pkt with
        | none => recvLoop unicast ramMb port 16 q rx
        | some f => do
          let (r, t) ← insertFrag f a.now a.reserved rx.table
          match r with
          | .noSlot => .ok (none, q, { rx with table := t })
          | .message out => .ok (some out, q, { rx with table := t })
          | .more => recvLoop unicast ramMb port 16 q { rx with table := t }

def fragTimeoutTicks : ℕ := 2000

def FragReassembly.expired (now : UInt64) (rs : FragReassembly) : Bool :=
  fragTimeoutTicks < (now-rs.lastTick).toNat

def recvFragmented (unicast : Bool) (ramMb : ℕ) (port : UInt16) (now : UInt64)
    (q : List Incoming) (rx : Rx) : Run (Option Bytes × List Incoming × Rx) :=
  recvLoop unicast ramMb port 16 q { rx with table := sweep (·.expired now) rx.table }

end NeuralOs.Mesh.Fragment

/-! ## Reassembly -/

namespace NeuralOs.Mesh.Reassembly
open ByteString Bitmap Checked Pieces SlotTable UdpFrame Fragment

variable {t : Slots FragReassembly} {f : Frag} {now : UInt64} {reserved : Bool}

/-! ### Safety -/

def Within (n : ℕ) (s : Scan) : Prop :=
  ∀ i, s.matchPos = some i ∨ s.freePos = some i ∨ s.oldestPos = some i → i < n

theorem scanStep_within {n id i : ℕ} {s : Scan} (slot : Option FragReassembly) (hs : Within n s)
    (hi : i < n) : Within n (scanStep id s (slot, i)) := by
  intro j hj
  cases slot with
  | none =>
    rw [scanStep] at hj
    split at hj
    · rcases hj with h | h | h
      · exact hs j (.inl h)
      · exact Option.some.inj h ▸ hi
      · exact hs j (.inr (.inr h))
    · exact hs j hj
  | some rs =>
    rw [scanStep] at hj
    split at hj
    · rcases hj with h | h
      · exact Option.some.inj h ▸ hi
      · exact hs j (.inr h)
    split at hj
    · rcases hj with h | h | h
      · exact hs j (.inl h)
      · exact hs j (.inr (.inl h))
      · exact Option.some.inj h ▸ hi
    · exact hs j hj

theorem scan_within {n : ℕ} (id : ℕ) (l : List (Option FragReassembly × ℕ)) (s : Scan) (hs : Within n s)
    (hl : ∀ a ∈ l, a.2 < n) : Within n (l.foldl (scanStep id) s) := by
  induction l generalizing s with
  | nil => exact hs
  | cons a l ih =>
    exact ih _ (scanStep_within a.1 hs (hl a (by simp))) fun b hb => hl b (by simp [hb])

theorem slotPos_lt {id i : ℕ} (h : slotPos id t = some i) : i < t.length := by
  have hw : Within t.length
      (t.zipIdx.foldl (scanStep id) ⟨none, none, none, 0xFFFFFFFFFFFFFFFF⟩) :=
    scan_within id t.zipIdx _ (by simp [Within]) fun a ha => by
      simpa using List.snd_lt_of_mem_zipIdx ha
  rw [slotPos] at h
  refine hw i ?_
  generalize t.zipIdx.foldl (scanStep id) ⟨none, none, none, 0xFFFFFFFFFFFFFFFF⟩ = s at h
  obtain ⟨m, v, o, _⟩ := s
  cases m with
  | some j => exact .inl h
  | none =>
    cases v with
    | some j => exact .inr (.inl h)
    | none => exact .inr (.inr h)

theorem readFrag_safe (ramMb : ℕ) (pkt : Bytes) : Safe (readFrag ramMb pkt) := by
  refine safe_ite (fun _ => safe_ok _) fun h => ?_
  simp only [fragHeaderSize] at h ⊢
  refine safe_bind (safe_sub (by omega) (by omega)) fun id _ => ?_
  refine safe_bind (safe_sub (by omega) (by omega)) fun total _ => ?_
  refine safe_bind (safe_sub (by omega) (by omega)) fun idx _ => ?_
  refine safe_bind (safe_sub (by omega) (by omega)) fun len _ => ?_
  refine safe_ite (fun _ => safe_ok _) fun _ => safe_ite (fun _ => safe_ok _) fun _ => ?_
  refine safe_bind (safe_sub (by omega) (by omega)) fun data _ => ?_
  exact safe_ite (fun _ => safe_ok _) fun _ => safe_ok _

theorem readFrag_bounds {ramMb : ℕ} {pkt : Bytes} (h : readFrag ramMb pkt = .ok (some f)) :
    f.idx < 1024 := by
  rw [readFrag] at h
  split at h
  · cases h
  obtain ⟨id, -, h⟩ := bind_ok.mp h
  obtain ⟨total, -, h⟩ := bind_ok.mp h
  obtain ⟨idx, -, h⟩ := bind_ok.mp h
  obtain ⟨len, -, h⟩ := bind_ok.mp h
  split at h
  · cases h
  next hc =>
    split at h
    · cases h
    obtain ⟨data, -, h⟩ := bind_ok.mp h
    split at h
    · cases h
    · cases h
      simp only [fragMaxParts] at hc
      dsimp only
      omega

theorem resized_length (chunks : List Bytes) (idx : ℕ) : idx < (resized chunks idx).length := by
  simp [resized]
  omega

theorem insertFrag_safe (now : UInt64) (reserved : Bool) (t : Slots FragReassembly)
    (h : f.idx < 1024) : Safe (insertFrag f now reserved t) := by
  rw [insertFrag]
  split
  · exact safe_ok _
  next pos hpos =>
    have hlt := slotPos_lt hpos
    rw [List.getElem?_eq_getElem hlt]
    dsimp only
    rw [if_neg (by omega)]
    refine safe_ite (fun _ => safe_ok _) fun _ => ?_
    rw [if_neg (Nat.not_le.mpr (resized_length _ _))]
    refine safe_ite (fun _ => safe_ok _) fun _ => ?_
    refine safe_ite (fun _ => ?_) fun _ => safe_ok _
    exact safe_ite (fun _ => safe_ok _) fun _ => safe_ok _

theorem recvLoop_safe {unicast : Bool} {ramMb : ℕ} {port : UInt16} {left : ℕ}
    {q : List Incoming} {rx : Rx} : Safe (recvLoop unicast ramMb port left q rx) := by
  induction q generalizing left rx with
  | nil =>
    cases left <;> exact safe_ok _
  | cons a q ih =>
    cases left with
    | zero => exact safe_ok _
    | succ left =>
      rw [recvLoop]
      refine safe_bind (udpPayload_safe _ _ _) fun o _ => ?_
      cases o with
      | none => exact ih
      | some p =>
        dsimp only
        refine safe_ite (fun _ => safe_ok _) fun _ => ?_
        refine safe_bind (readFrag_safe _ _) fun o ho => ?_
        cases o with
        | none => exact ih
        | some f =>
          refine safe_bind (insertFrag_safe _ _ _ (readFrag_bounds ho)) fun r _ => ?_
          obtain ⟨r, t⟩ := r
          cases r with
          | noSlot => exact safe_ok _
          | message out => exact safe_ok _
          | more => exact ih

/-! ### One message -/

abbrev parts (p : Bytes) : ℕ := pieceCount fragMaxChunk p.length

/-- The pieces of `p` that have been seen are in their places. -/
structure Collected (p : Bytes) (seen : Bits) (chunks : List Bytes) (received : ℕ) : Prop where
  inside : ∀ i, seen i = true → i < parts p
  counted : received = ((Finset.range (parts p)).filter fun i => seen i = true).card
  pieces : ∀ i, chunks.getD i [] = if seen i then piece fragMaxChunk p i else []
  bound : chunks.length ≤ parts p

variable {p : Bytes} {seen : Bits} {chunks : List Bytes} {received : ℕ}

theorem collected_empty (p : Bytes) : Collected p (fun _ => false) [] 0 :=
  ⟨by simp, by simp, by simp, by simp⟩

theorem resized_getD (chunks : List Bytes) (i j : ℕ) :
    (resized chunks i).getD j [] = chunks.getD j [] := by
  rw [resized]
  by_cases hj : j < chunks.length
  · rw [List.getD_append _ _ _ _ hj]
  · rw [List.getD_append_right _ _ _ _ (by omega), List.getD_eq_default chunks _ (by omega)]
    rw [List.getD_eq_getElem?_getD, List.getElem?_replicate]
    split <;> rfl

theorem collected_add (h : Collected p seen chunks received) {i : ℕ} (hi : i < parts p)
    (hnew : seen i = false) :
    Collected p (mark seen i 1) ((resized chunks i).set i (piece fragMaxChunk p i))
      (received+1) := by
  have hmark : ∀ j, mark seen i 1 j = true ↔ j = i ∨ seen j = true := by
    intro j
    simp only [mark, Bool.or_eq_true, decide_eq_true_eq]
    constructor
    · rintro (h | h)
      · exact .inr h
      · exact .inl (by omega)
    · rintro (h | h)
      · exact .inr (by omega)
      · exact .inl h
  refine ⟨fun j hj => ?_, ?_, fun j => ?_, ?_⟩
  · rcases (hmark j).mp hj with rfl | hj
    · exact hi
    · exact h.inside j hj
  · have hset : ((Finset.range (parts p)).filter fun j => mark seen i 1 j = true) =
        insert i ((Finset.range (parts p)).filter fun j => seen j = true) := by
      ext j
      simp only [Finset.mem_filter, Finset.mem_range, Finset.mem_insert, hmark]
      constructor
      · tauto
      · rintro (rfl | h)
        · exact ⟨hi, .inl rfl⟩
        · exact ⟨h.1, .inr h.2⟩
    rw [hset, Finset.card_insert_of_notMem (by simp [hnew]), h.counted]
  · by_cases hij : j = i
    · subst hij
      rw [if_pos ((hmark j).mpr (.inl rfl)), List.getD_eq_getElem _ _ (by
        simpa using resized_length chunks j)]
      simp
    · have hseen : mark seen i 1 j = seen j := by
        rw [Bool.eq_iff_iff, hmark]
        simp [hij]
      rw [hseen, ← h.pieces j, ← resized_getD chunks i j, List.getD_eq_getElem?_getD,
        List.getD_eq_getElem?_getD, List.getElem?_set_ne (Ne.symm hij)]
  · have := h.bound
    simp only [List.length_set, resized, List.length_append, List.length_replicate]
    omega

theorem collected_full (h : Collected p seen chunks received) (hr : received = parts p) :
    chunks.flatten = p := by
  have hall : ∀ i < parts p, seen i = true := by
    have hcard := h.counted
    rw [hr] at hcard
    have hfilter := Finset.eq_of_subset_of_card_le
      (Finset.filter_subset (fun i => seen i = true) (Finset.range (parts p)))
      (by rw [Finset.card_range]; omega)
    intro i hi
    have : i ∈ (Finset.range (parts p)).filter fun i => seen i = true := by
      rw [hfilter]
      simpa using hi
    exact (Finset.mem_filter.mp this).2
  have hlen : chunks.length = parts p := by
    refine le_antisymm h.bound (Nat.le_of_not_lt fun hlt => ?_)
    have hpiece := h.pieces chunks.length
    rw [if_pos (hall _ hlt), List.getD_eq_default _ _ le_rfl] at hpiece
    have := piece_length_pos (by decide) hlt
    rw [← hpiece] at this
    simp at this
  have hchunks : chunks = (List.range (parts p)).map (piece fragMaxChunk p) := by
    apply List.ext_getElem
    · simpa using hlen
    · intro i h₁ h₂
      have := h.pieces i
      rw [List.getD_eq_getElem _ _ h₁, if_pos (hall i (by omega))] at this
      simpa using this
  rw [hchunks]
  exact pieces_join (by decide)

structure Holds (id : ℕ) (p : Bytes) (rs : FragReassembly) : Prop where
  id : rs.id = id
  totalFrags : rs.totalFrags = parts p
  totalLen : rs.totalLen = p.length
  collected : Collected p rs.seen rs.chunks rs.received

theorem insertFrag_spec {P : FragReassembly → Prop} {id i : ℕ} {r : FragResult}
    {t' : Slots FragReassembly}
    (hf : f = ⟨id, parts p, i, p.length, piece fragMaxChunk p i⟩) (hi : i < parts p)
    (ht : ∀ rs ∈ entries t, P rs) (hP : ∀ rs, P rs → rs.id = id → Holds id p rs)
    (hP' : ∀ rs, Holds id p rs → P rs)
    (h : insertFrag f now reserved t = .ok (r, t')) :
    (∀ rs ∈ entries t', P rs) ∧ ∀ out, r = .message out → out = p := by
  rw [insertFrag] at h
  split at h
  · cases h
    exact ⟨ht, by simp⟩
  next pos hpos =>
    split at h
    · cases h
    next slot hslot =>
      have hfresh : Holds id p ⟨f.id, f.total, 0, f.len, fun _ => false, [], now⟩ := by
        subst hf
        exact ⟨rfl, rfl, rfl, collected_empty p⟩
      have hrs : Holds id p (reassemblyFor f now slot) := by
        cases slot with
        | none => exact hfresh
        | some rs =>
          rw [reassemblyFor]
          split
          next hid =>
            exact hP rs (ht rs (mem_entries.mpr (List.mem_of_getElem? hslot))) (by rw [hid, hf])
          · exact hfresh
      have hset : ∀ {o : Option FragReassembly}, (∀ rs, o = some rs → P rs) →
          ∀ rs ∈ entries (t.set pos o), P rs := by
        intro o ho rs hrs
        rcases mem_entries_set hrs with hrs | hrs
        · exact ht rs hrs
        · exact ho rs hrs
      have hidx : f.idx = i := by rw [hf]
      have hdata : f.data = piece fragMaxChunk p i := by rw [hf]
      dsimp only at h
      split at h
      · cases h
      split at h
      · cases h
        exact ⟨hset fun rs hrs' => Option.some.inj hrs' ▸ hP' _ hrs, by simp⟩
      next hnew =>
        split at h
        · cases h
        split at h
        · cases h
          exact ⟨hset (by simp), by simp⟩
        have hnext := collected_add hrs.collected hi (by simpa [hidx] using hnew)
        rw [hidx, hdata] at h
        split at h
        next hfull =>
          split at h
          · cases h
            exact ⟨hset (by simp), by simp⟩
          · cases h
            refine ⟨hset (by simp), fun out hout => ?_⟩
            obtain rfl := FragResult.message.inj hout
            exact collected_full hnext (hfull.trans hrs.totalFrags)
        · cases h
          refine ⟨hset fun rs hrs' => ?_, by simp⟩
          obtain rfl := Option.some.inj hrs'
          exact hP' _ ⟨hrs.id, hrs.totalFrags, hrs.totalLen, hnext⟩

end NeuralOs.Mesh.Reassembly
