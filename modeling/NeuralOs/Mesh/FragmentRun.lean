import NeuralOs.Mesh.Reassembly

/-!
# Fragments on the air

Any number of senders and one receiver on a network that loses, repeats and
reorders frames. As long as no two messages are cut under one id, every message
that the receiver returns was passed to a sender.
-/

set_option autoImplicit false

namespace NeuralOs.Mesh.FragmentRun
open ByteString Checked Pieces SlotTable UdpFrame Fragment Reassembly

def Cut (payload : Bytes) : Prop :=
  fragDirectMax < payload.length ∧ payload.length ≤ fragMaxPayload

instance (payload : Bytes) : Decidable (Cut payload) := inferInstanceAs (Decidable (_ ∧ _))

/-- `air` has all frames ever sent, `cut` the messages that were cut with their ids. -/
structure World where
  senders : ℕ → Sender
  air : List Bytes
  passed : List Bytes
  cut : List (UInt32 × Bytes)
  rx : Rx
  returned : List Bytes

def World.start (senders : ℕ → Sender) : World := ⟨senders, [], [], [], Rx.new, []⟩

inductive Step
  | send (i : ℕ) (dest : Mac) (payload : Bytes) (port : UInt16)
  | receive (unicast : Bool) (ramMb : ℕ) (port : UInt16) (now : UInt64) (q : List Incoming)

def World.step (w : World) : Step → Run World
  | .send i dest payload port =>
    let s := w.senders i
    let (s', _, frames) := s.sendFragmented dest payload port
    .ok { w with
      senders := Function.update w.senders i s'
      air := w.air ++ frames
      passed := w.passed ++ [payload]
      cut := if Cut payload then w.cut ++ [(s.fragId, payload)] else w.cut }
  | .receive unicast ramMb port now q => do
    let (o, _, rx) ← recvFragmented unicast ramMb port now q w.rx
    .ok { w with rx := rx, returned := w.returned ++ o.toList }

def World.run : World → List Step → Run World
  | w, [] => .ok w
  | w, s :: l => do
    let w' ← w.step s
    w'.run l

/-- Frames that the receiver takes in were sent, at any time before. -/
def Possible (w : World) : Step → Prop
  | .send _ _ _ _ => True
  | .receive _ _ _ _ q => ∀ a ∈ q, a.frame ∈ w.air

/-- A payload that is not cut does not look like a fragment, and one that is cut does not
get the id of another one. -/
def Careful (w : World) : Step → Prop
  | .send i _ payload _ =>
    (payload.length ≤ fragDirectMax → fragTag.isPrefixOf payload = false) ∧
      (Cut payload → ∀ m ∈ w.cut, m.1 = (w.senders i).fragId → m.2 = payload)
  | .receive _ _ _ _ _ => True

def Along (P : World → Step → Prop) : World → List Step → Prop
  | _, [] => True
  | w, s :: l => P w s ∧ ∀ w', w.step s = .ok w' → Along P w' l

/-! ### Fragments of a message -/

theorem parts_le {p : Bytes} (h : Cut p) : parts p ≤ 1024 :=
  (pieceCount_le_iff (by decide) _ _).mpr h.2

theorem fragment_tag (id : UInt32) (p : Bytes) (i : ℕ) :
    fragTag.isPrefixOf (fragment id p i) = true := by
  simp [fragment, fragTag, List.isPrefixOf]

theorem fragment_length (id : UInt32) (p : Bytes) (i : ℕ) :
    (fragment id p i).length = 21+(piece fragMaxChunk p i).length := by
  simp [fragment, fragTag]
  omega

variable {dest : Mac} {i : ℕ} {port : UInt16}

theorem readFrag_fragment {p : Bytes} (hp : Cut p) (id : UInt32) (hi : i < parts p)
    (ramMb : ℕ) : readFrag ramMb (fragment id p i) =
      .ok (if fragReassemblyBudgetBytes ramMb < p.length then none
        else some ⟨id.toNat, parts p, i, p.length, piece fragMaxChunk p i⟩) := by
  have hparts := parts_le hp
  have hmax : p.length ≤ 1024000 := hp.2
  set d := piece fragMaxChunk p i
  have hlen := fragment_length id p i
  have hbody : fragment id p i = fragTag ++ (toLe 4 id.toNat ++ (toLe 4 (parts p) ++ (toLe 4 i ++
      (toLe 4 p.length ++ d)))) := by
    simp [fragment, d]
  set w := fragment id p i
  have hid : slice w 5 (9-5) = toLe 4 id.toNat := by
    rw [hbody]
    exact slice_at _ _ _ rfl (by simp)
  have htotal : slice w 9 (13-9) = toLe 4 (parts p) := by
    rw [hbody, ← List.append_assoc]
    exact slice_at _ _ _ (by simp [fragTag]) (by simp)
  have hidx : slice w 13 (17-13) = toLe 4 i := by
    rw [hbody, ← List.append_assoc, ← List.append_assoc]
    exact slice_at _ _ _ (by simp [fragTag]) (by simp)
  have hlen' : slice w 17 (21-17) = toLe 4 p.length := by
    rw [hbody, ← List.append_assoc, ← List.append_assoc, ← List.append_assoc]
    exact slice_at _ _ _ (by simp [fragTag]) (by simp)
  have hdata : slice w fragHeaderSize (w.length-fragHeaderSize) = d := by
    have := slice_at (fragTag ++ toLe 4 id.toNat ++ toLe 4 (parts p) ++ toLe 4 i ++
      toLe 4 p.length) d [] (o := 21) (n := d.length) (by simp [fragTag]) rfl
    rw [hlen, fragHeaderSize, show 21+d.length-(5+16) = d.length by omega, hbody]
    simpa using this
  have hle : ∀ n < 2^32, fromLe (toLe 4 n) = n := by
    intro n hn
    rw [fromLe_toLe, Nat.mod_eq_of_lt (by omega)]
  have hpos : 0 < d.length := piece_length_pos (by decide) hi
  have hd' : ¬(d = [] ∨ fragMaxChunk < d.length) := by
    rintro (h | h)
    · simp [h] at hpos
    · exact absurd (piece_length_le i : d.length ≤ fragMaxChunk) (Nat.not_le.mpr h)
  rw [readFrag, if_neg (by rw [fragHeaderSize]; omega), sub_eq (by omega) (by omega), ok_bind,
    sub_eq (by omega) (by omega), ok_bind, sub_eq (by omega) (by omega), ok_bind,
    sub_eq (by omega) (by omega), ok_bind, hid, htotal, hidx, hlen',
    hle id.toNat (by simpa using id.toNat_lt), hle (parts p) (by omega), hle i (by omega),
    hle p.length (by omega)]
  rw [if_neg (by
    have := hp.1
    simp only [fragMaxParts, fragMaxPayload, fragMaxChunk, fragDirectMax] at *
    omega)]
  split
  · rfl
  · rw [sub_eq (by rw [fragHeaderSize]; omega) le_rfl, ok_bind, hdata, if_neg hd']

/-! ### The invariant -/

/-- A frame carries a payload that was passed, or a fragment of one that was cut. -/
def Carries (w : World) (frame : Bytes) : Prop :=
  ∃ cfg dest pkt port, buildUdpFrame cfg dest pkt port = some frame ∧
    ((pkt ∈ w.passed ∧ pkt.length ≤ fragDirectMax ∧ fragTag.isPrefixOf pkt = false) ∨
      ∃ m ∈ w.cut, ∃ i < parts m.2, pkt = fragment m.1 m.2 i)

def Known (cut : List (UInt32 × Bytes)) (rs : FragReassembly) : Prop :=
  ∃ m ∈ cut, Holds m.1.toNat m.2 rs

structure Intact (w : World) : Prop where
  air : ∀ f ∈ w.air, Carries w f
  cut : ∀ m ∈ w.cut, Cut m.2 ∧ m.2 ∈ w.passed
  distinct : ∀ m ∈ w.cut, ∀ m' ∈ w.cut, m.1 = m'.1 → m.2 = m'.2
  table : ∀ rs ∈ entries w.rx.table, Known w.cut rs
  returned : ∀ m ∈ w.returned, m ∈ w.passed

theorem intact_start (senders : ℕ → Sender) : Intact (World.start senders) :=
  ⟨by simp [World.start], by simp [World.start], by simp [World.start],
    by simp [World.start, Rx.new], by simp [World.start]⟩

variable {w w' : World}

@[simp] theorem learnMac_table (rx : Rx) (pkt mac : Bytes) :
    (rx.learnMac pkt mac).table = rx.table := by
  rw [Rx.learnMac]
  split
  · rfl
  · split <;> rfl

theorem recvLoop_intact (h : Intact w) (unicast : Bool) (ramMb : ℕ) (port : UInt16) (left : ℕ)
    (q : List Incoming) (rx : Rx) (hq : ∀ a ∈ q, a.frame ∈ w.air)
    (hrx : ∀ rs ∈ entries rx.table, Known w.cut rs) {o : Option Bytes} {q' : List Incoming}
    {rx' : Rx} (hrun : recvLoop unicast ramMb port left q rx = .ok (o, q', rx')) :
    (∀ rs ∈ entries rx'.table, Known w.cut rs) ∧ ∀ out, o = some out → out ∈ w.passed := by
  induction q generalizing left rx with
  | nil =>
    cases left <;>
    · cases hrun
      exact ⟨hrx, by simp⟩
  | cons a q ih =>
    have hq' : ∀ b ∈ q, b.frame ∈ w.air := fun b hb => hq b (by simp [hb])
    cases left with
    | zero =>
      cases hrun
      exact ⟨hrx, by simp⟩
    | succ left =>
      obtain ⟨cfg, dest, pkt, port', hbuild, hpkt⟩ := h.air a.frame (hq a (by simp))
      have hsmall : pkt.length < 65528 := by
        rcases hpkt with ⟨-, hle, -⟩ | ⟨m, -, i, -, rfl⟩
        · simp only [fragDirectMax] at hle
          omega
        · have : (piece fragMaxChunk m.2 i).length ≤ fragMaxChunk := piece_length_le i
          rw [fragment_length]
          simp only [fragMaxChunk] at this ⊢
          omega
      rw [recvLoop, udpPayload_build hsmall hbuild, ok_bind] at hrun
      split at hrun
      next hnone => exact ih left rx hq' hrx hrun
      next pkt' mac hsome =>
        obtain rfl : pkt = pkt' := by
          split at hsome
          · exact congrArg Prod.fst (Option.some.inj hsome)
          · cases hsome
        have hrx' : ∀ rs ∈ entries (if unicast then rx else rx.learnMac pkt mac).table,
            Known w.cut rs := by
          split
          · exact hrx
          · simpa using hrx
        rcases hpkt with ⟨hmem, -, htag⟩ | ⟨m, hm, i, hi, rfl⟩
        · rw [if_pos htag] at hrun
          cases hrun
          exact ⟨hrx', fun out hout => Option.some.inj hout ▸ hmem⟩
        rw [if_neg (by simp [fragment_tag]), readFrag_fragment (h.cut m hm).1 m.1 hi,
          ok_bind] at hrun
        split at hrun
        next hnone => exact ih 16 _ hq' hrx' hrun
        next f hf =>
          obtain ⟨⟨r, t⟩, hins, hrun⟩ := bind_ok.mp hrun
          have hfrag : f = ⟨m.1.toNat, parts m.2, i, m.2.length, piece fragMaxChunk m.2 i⟩ := by
            split at hf
            · cases hf
            · exact (Option.some.inj hf).symm
          obtain ⟨ht, hout⟩ := insertFrag_spec hfrag hi hrx' (P := Known w.cut) (by
            rintro rs ⟨m', hm', hh⟩ hid
            have hsame : m'.1 = m.1 := UInt32.toNat_inj.mp (hh.id.symm.trans hid)
            rw [← h.distinct m' hm' m hm hsame, ← hsame]
            exact hh) (fun rs hh => ⟨m, hm, hh⟩) hins
          cases r with
          | noSlot =>
            cases hrun
            exact ⟨ht, by simp⟩
          | message out =>
            cases hrun
            refine ⟨ht, fun out' hout' => ?_⟩
            rw [← Option.some.inj hout', hout out rfl]
            exact (h.cut m hm).2
          | more => exact ih 16 _ hq' ht hrun

theorem receive_intact (h : Intact w) {unicast : Bool} {ramMb : ℕ} {now : UInt64}
    {q : List Incoming} (hq : Possible w (.receive unicast ramMb port now q)) :
    ∃ w', w.step (.receive unicast ramMb port now q) = .ok w' ∧ Intact w' := by
  have hsafe : Safe (recvFragmented unicast ramMb port now q w.rx) := recvLoop_safe
  cases hr : recvFragmented unicast ramMb port now q w.rx with
  | error e =>
    cases e with
    | panic => exact absurd hr hsafe
    | refused e => cases e
  | ok r =>
    obtain ⟨o, q', rx⟩ := r
    have hswept : ∀ rs ∈ entries (sweep (·.expired now) w.rx.table), Known w.cut rs :=
      fun rs hrs => h.table rs (mem_entries_sweep.mp hrs).1
    obtain ⟨ht, hout⟩ := recvLoop_intact h unicast ramMb port 16 q
      { w.rx with table := sweep (·.expired now) w.rx.table } hq hswept hr
    refine ⟨{ w with rx := rx, returned := w.returned ++ o.toList }, ?_,
      h.air, h.cut, h.distinct, ht, fun m hm => ?_⟩
    · rw [World.step, hr]
      rfl
    · rcases List.mem_append.mp hm with hm | hm
      · exact h.returned m hm
      · exact hout m (by simpa using hm)

theorem Carries.mono {f : Bytes} (h : Carries w f) (hp : ∀ m ∈ w.passed, m ∈ w'.passed)
    (hc : ∀ m ∈ w.cut, m ∈ w'.cut) : Carries w' f := by
  obtain ⟨cfg, dest, pkt, port, hbuild, hpkt⟩ := h
  refine ⟨cfg, dest, pkt, port, hbuild, ?_⟩
  rcases hpkt with ⟨hmem, hrest⟩ | ⟨m, hm, hrest⟩
  · exact .inl ⟨hp pkt hmem, hrest⟩
  · exact .inr ⟨m, hc m hm, hrest⟩

theorem sent_carries {s : Sender} {payload : Bytes} {f : Bytes}
    (htag : payload.length ≤ fragDirectMax → fragTag.isPrefixOf payload = false)
    (hf : f ∈ (s.sendFragmented dest payload port).2.2) (hp : payload ∈ w.passed)
    (hc : Cut payload → (s.fragId, payload) ∈ w.cut) : Carries w f := by
  rw [Sender.sendFragmented] at hf
  split at hf
  · simp at hf
  next hmax =>
    split at hf
    next hdirect =>
      exact ⟨s.cfg, dest, payload, port, by simpa using hf, .inl ⟨hp, hdirect, htag hdirect⟩⟩
    next hlong =>
      obtain ⟨i, hi, hbuild⟩ := List.mem_map.mp (mem_entries.mp hf)
      exact ⟨s.cfg, dest, _, port, hbuild,
        .inr ⟨_, hc ⟨by omega, by omega⟩, i, List.mem_range.mp hi, rfl⟩⟩

theorem send_intact (h : Intact w) {payload : Bytes}
    (hcare : Careful w (.send i dest payload port)) :
    ∃ w', w.step (.send i dest payload port) = .ok w' ∧ Intact w' := by
  obtain ⟨htag, hid⟩ := hcare
  refine ⟨_, rfl, ?_⟩
  set w' : World := { w with
    senders := Function.update w.senders i ((w.senders i).sendFragmented dest payload port).1
    air := w.air ++ ((w.senders i).sendFragmented dest payload port).2.2
    passed := w.passed ++ [payload]
    cut := if Cut payload then w.cut ++ [((w.senders i).fragId, payload)] else w.cut } with hw'
  have hpassed : ∀ m ∈ w.passed, m ∈ w'.passed := fun m hm => by simp [hw', hm]
  have hcut : ∀ m ∈ w.cut, m ∈ w'.cut := by
    intro m hm
    simp only [hw']
    split <;> simp [hm]
  -- a message that is cut now is an older one or the one at hand
  have hcut' : ∀ m ∈ w'.cut, m ∈ w.cut ∨ (Cut payload ∧ m = ((w.senders i).fragId, payload)) := by
    intro m hm
    simp only [hw'] at hm
    split at hm
    next hc =>
      rcases List.mem_append.mp hm with hm | hm
      · exact .inl hm
      · exact .inr ⟨hc, by simpa using hm⟩
    · exact .inl hm
  have hnew : Cut payload → ((w.senders i).fragId, payload) ∈ w'.cut := fun hc => by
    simp [hw', hc]
  show Intact w'
  refine ⟨fun f hf => ?_, fun m hm => ?_, fun m hm m' hm' hsame => ?_, fun rs hrs => ?_,
    fun m hm => hpassed m (h.returned m hm)⟩
  · rcases List.mem_append.mp hf with hf | hf
    · exact (h.air f hf).mono hpassed hcut
    · exact sent_carries htag hf (by simp [hw']) hnew
  · rcases hcut' m hm with hm | ⟨hc, rfl⟩
    · exact ⟨(h.cut m hm).1, hpassed _ (h.cut m hm).2⟩
    · exact ⟨hc, by simp [hw']⟩
  · rcases hcut' m hm with hm | ⟨hc, rfl⟩ <;> rcases hcut' m' hm' with hm' | ⟨hc', rfl⟩
    · exact h.distinct m hm m' hm' hsame
    · exact hid hc' m hm hsame
    · exact (hid hc m' hm' hsame.symm).symm
    · rfl
  · obtain ⟨m, hm, hh⟩ := h.table rs hrs
    exact ⟨m, hcut m hm, hh⟩

theorem step_intact (h : Intact w) {s : Step} (hposs : Possible w s) (hcare : Careful w s) :
    ∃ w', w.step s = .ok w' ∧ Intact w' := by
  cases s with
  | send i dest payload port => exact send_intact h hcare
  | receive unicast ramMb port now q => exact receive_intact h hposs

theorem run_intact (h : Intact w) (steps : List Step) (hposs : Along Possible w steps)
    (hcare : Along Careful w steps) : ∃ w', w.run steps = .ok w' ∧ Intact w' := by
  induction steps generalizing w with
  | nil => exact ⟨w, rfl, h⟩
  | cons s steps ih =>
    obtain ⟨w₁, hstep, h₁⟩ := step_intact h hposs.1 hcare.1
    obtain ⟨w₂, hrun, h₂⟩ := ih h₁ (hposs.2 w₁ hstep) (hcare.2 w₁ hstep)
    exact ⟨w₂, by rw [World.run, hstep, ok_bind, hrun], h₂⟩

theorem messages_intact (senders : ℕ → Sender) (steps : List Step)
    (hposs : Along Possible (World.start senders) steps)
    (hcare : Along Careful (World.start senders) steps) :
    ∃ w, (World.start senders).run steps = .ok w ∧ ∀ m ∈ w.returned, m ∈ w.passed := by
  obtain ⟨w, hrun, hw⟩ := run_intact (intact_start senders) steps hposs hcare
  exact ⟨w, hrun, hw.returned⟩

def node (i : ℕ) : Sender :=
  ⟨1, ⟨#v[10, 0, 3, UInt8.ofNat (i+2)], #v[2, 0, 0, 0, 0, UInt8.ofNat (i+1)]⟩⟩

@[irreducible] def message (x : UInt8) : Bytes := List.replicate 1201 x

def airOf (i : ℕ) (x : UInt8) : List Bytes :=
  ((node i).sendFragmented broadcastMac (message x) 42069).2.2

def frameOf (i : ℕ) (x : UInt8) (k : ℕ) : Incoming := ⟨(airOf i x).getD k [], 0, true⟩

theorem send_air {payload : Bytes} (h : w.step (.send i dest payload port) = .ok w') :
    w'.air = w.air ++ ((w.senders i).sendFragmented dest payload port).2.2 ∧
      ∀ j, j ≠ i → w'.senders j = w.senders j := by
  rw [← Except.ok.inj h]
  exact ⟨rfl, fun j hj => Function.update_of_ne hj _ _⟩

theorem airOf_sent {x : UInt8} (hs : w.senders i = node i)
    (h : w.step (.send i broadcastMac (message x) 42069) = .ok w') :
    w'.air = w.air ++ airOf i x := by
  rw [(send_air h).1, hs, airOf]

theorem frameOf_sent : (∀ k < 2, (frameOf 0 1 k).frame ∈ airOf 0 1) ∧
    ∀ k < 2, (frameOf 1 2 k).frame ∈ airOf 1 2 := by
  decide +kernel

def singleRun : List Step :=
  [.send 0 broadcastMac (message 1) 42069,
    .receive false 0 42069 0 [frameOf 0 1 1, frameOf 0 1 1, frameOf 0 1 0]]

theorem messages_intact_single :
    Along Possible (World.start node) singleRun ∧ Along Careful (World.start node) singleRun ∧
      ∃ w, (World.start node).run singleRun = .ok w ∧ ∀ m ∈ w.returned, m ∈ w.passed := by
  have hposs : Along Possible (World.start node) singleRun := by
    refine ⟨trivial, fun w h => ⟨fun a ha => ?_, fun _ _ => trivial⟩⟩
    rw [airOf_sent rfl h, List.mem_append]
    right
    rcases List.mem_cons.mp ha with rfl | ha
    · exact frameOf_sent.1 1 (by decide)
    rcases List.mem_cons.mp ha with rfl | ha
    · exact frameOf_sent.1 1 (by decide)
    rw [List.mem_singleton.mp ha]
    exact frameOf_sent.1 0 (by decide)
  have hcare : Along Careful (World.start node) singleRun :=
    ⟨⟨by decide +kernel, by simp [World.start]⟩, fun w _ => ⟨trivial, fun _ _ => trivial⟩⟩
  exact ⟨hposs, hcare, messages_intact node singleRun hposs hcare⟩

def mixedRun : List Step :=
  [.send 0 broadcastMac (message 1) 42069, .send 1 broadcastMac (message 2) 42069,
    .receive false 0 42069 0 [frameOf 0 1 0, frameOf 1 2 1]]

def outcome (r : Run World) : List Bytes × List Bytes :=
  match r with
  | .ok w => (w.returned, w.passed)
  | .error _ => ([], [])

theorem mixed_message :
    Along Possible (World.start node) mixedRun ∧
      outcome ((World.start node).run mixedRun) =
        ([List.replicate 1000 1 ++ List.replicate 201 2], [message 1, message 2]) := by
  refine ⟨⟨trivial, fun w h => ⟨trivial, fun w' h' => ⟨fun a ha => ?_, fun _ _ => trivial⟩⟩⟩,
    by decide +kernel⟩
  have hs := (send_air h).2 1 (by decide)
  rw [airOf_sent hs h', airOf_sent rfl h, List.mem_append]
  rcases List.mem_cons.mp ha with rfl | ha
  · exact .inl (List.mem_append_right _ (frameOf_sent.1 0 (by decide)))
  · rw [List.mem_singleton.mp ha]
    exact .inr (frameOf_sent.2 1 (by decide))

end NeuralOs.Mesh.FragmentRun
