import Osix.Net.Input
import Osix.Lib.Transition

/-!
# The receive ring

`re_dev_t` and `re_input` of `sys/dev/if_re.c` again, now with the position `rx_buf_head`, and
the network card as `re_init` configures it: it stores a frame with its header in one piece, also
across the end of its ring of 8192 bytes, and then goes on from a position modulo 8192. Frames can
arrive while others wait, since an interrupt takes one frame.

Addresses are relative to `rx_buf`, and `rx_buf_head` follows right behind it.
-/

namespace Osix.Net

/-- The size of `rx_buf`. -/
def rxBufSize : ℕ := 8192 + 16 + 1500

/-- The place of `rx_buf_head`. -/
def rxBufHead : ℕ := rxBufSize

/-- The size of the ring of the card. -/
def ringSize : ℕ := 8192

/-- A received frame as the card stores it, with the length that is in its header. -/
structure Frame where
  header : BitVec 16
  len : BitVec 16
  data : ℕ → Byte
  short : len.toNat ≤ 1514 + 4

/-- The bytes that are stored. -/
def Frame.image (frame : Frame) : ℕ → Byte
  | 0 => frame.header.setWidth 8
  | 1 => (frame.header >>> 8).setWidth 8
  | 2 => frame.len.setWidth 8
  | 3 => (frame.len >>> 8).setWidth 8
  | index + 4 => frame.data index

/-- `(len + 4 + 3) & ~3`. -/
def rounded (len : ℕ) : ℕ := (len + 4 + 3) / 4 * 4

/-- A `uint16_t` in memory. -/
def word (mem : Addr → Byte) (addr : ℕ) : ℕ :=
  (mem (BitVec.ofNat 32 addr)).toNat + 256 * (mem (BitVec.ofNat 32 (addr + 1))).toNat

/-- A `uint16_t` is stored. -/
def setWord (mem : Addr → Byte) (addr value : ℕ) : Addr → Byte :=
  Function.update (Function.update mem (BitVec.ofNat 32 addr) (BitVec.ofNat 8 value))
    (BitVec.ofNat 32 (addr + 1)) (BitVec.ofNat 8 (value / 256))

/--
The memory, the position of the card, and the frames that have not been taken yet with the
positions at which the card has stored them.
-/
structure Ring where
  mem : Addr → Byte
  offset : ℕ
  waiting : List (ℕ × Frame)

namespace Ring

/-- `rx_buf_head`. -/
def head (ring : Ring) : ℕ := word ring.mem rxBufHead

/-- `re_init` clears the device. -/
def start (mem : Addr → Byte) : Ring where
  mem addr := if addr.toNat < rxBufHead + 2 then 0 else mem addr
  offset := 0
  waiting := []

/-- The card stores a frame. -/
def receive (ring : Ring) (frame : Frame) : Ring where
  mem addr :=
    if ring.offset ≤ addr.toNat ∧ addr.toNat < ring.offset + 4 + frame.len.toNat then
      frame.image (addr.toNat - ring.offset)
    else ring.mem addr
  offset := (ring.offset + rounded frame.len.toNat) % ringSize
  waiting := ring.waiting ++ [(ring.offset, frame)]

/-- The address of `buf->payload`. -/
def payload (ring : Ring) : Addr := BitVec.ofNat 32 (ring.head + 4 + sizeofEther)

/-- The layers store a 0 at an address. -/
def Stores (ring : Ring) (addr : Addr) : Prop :=
  let trace := reInput (fun index => ring.mem (ring.payload + index))
    (BitVec.ofNat 16 (word ring.mem (ring.head + 2)))
  .write (addr - ring.payload) ∈ trace.header ++ trace.payload

instance (ring : Ring) (addr : Addr) : Decidable (ring.Stores addr) := by
  unfold Stores
  infer_instance

/-- The memory when the layers have returned. -/
def handled (ring : Ring) : Addr → Byte := fun addr => if ring.Stores addr then 0 else ring.mem addr

/-- `re_input`. -/
def input (ring : Ring) : Ring where
  mem := setWord ring.handled rxBufHead
    ((word ring.handled rxBufHead + rounded (word ring.handled (ring.head + 2))) % 2 ^ 16)
  offset := ring.offset
  waiting := ring.waiting.tail

inductive Event where
  | receive (frame : Frame)
  | interrupt

/-- An interrupt calls `re_input` if a frame has been received. -/
def step (ring : Ring) : Event → Option Ring
  | .receive frame => some (ring.receive frame)
  | .interrupt => if ring.waiting = [] then none else some ring.input

/-! ## The position of the next frame -/

/-- The position at which the card stored the next frame, or will store it. -/
def next (ring : Ring) : ℕ := (ring.waiting.head?.map Prod.fst).getD ring.offset

/-- `rx_buf_head` is the position of the next frame, and the frames are inside of `rx_buf`. -/
structure Synced (ring : Ring) : Prop where
  position : ring.head = ring.next
  aligned : 4 ∣ ring.head
  inside : ∀ entry ∈ ring.waiting, entry.1 + 4 + entry.2.len.toNat ≤ rxBufSize

/-- The layers clear a byte that is not 0. -/
def Clears (ring : Ring) (addr : ℕ) : Prop :=
  ring.Stores (BitVec.ofNat 32 addr) ∧ ring.mem (BitVec.ofNat 32 addr) ≠ 0

/-- The lengths in the headers of the frames that wait are not overwritten. -/
def Spares (ring : Ring) : Event → Prop
  | .receive frame => ∀ entry ∈ ring.waiting,
      entry.1 + 4 ≤ ring.offset ∨ ring.offset + 4 + frame.len.toNat ≤ entry.1 + 2
  | .interrupt => ∀ entry ∈ ring.waiting.tail,
      ¬ ring.Clears (entry.1 + 2) ∧ ¬ ring.Clears (entry.1 + 3)

/--
A frame is received into `rx_buf`. A frame is taken whose end is not where the ring of the card
ends, or behind that, and which does not make the layers clear a byte of `rx_buf_head`.
-/
def Goes (ring : Ring) : Event → Prop
  | .receive frame => ring.offset + 4 + frame.len.toNat ≤ rxBufSize
  | .interrupt => ring.next + rounded (word ring.mem (ring.next + 2)) < ringSize ∧
      ¬ ring.Clears rxBufHead ∧ ¬ ring.Clears (rxBufHead + 1)

instance (ring : Ring) (addr : ℕ) : Decidable (ring.Clears addr) :=
  inferInstanceAs (Decidable (_ ∧ _))

instance (ring : Ring) : (event : Event) → Decidable (ring.Spares event)
  | .receive frame => inferInstanceAs (Decidable (∀ entry ∈ ring.waiting,
      entry.1 + 4 ≤ ring.offset ∨ ring.offset + 4 + frame.len.toNat ≤ entry.1 + 2))
  | .interrupt => inferInstanceAs (Decidable (∀ entry ∈ ring.waiting.tail,
      ¬ ring.Clears (entry.1 + 2) ∧ ¬ ring.Clears (entry.1 + 3)))

instance (ring : Ring) : (event : Event) → Decidable (ring.Goes event)
  | .receive _ => inferInstanceAs (Decidable (_ ≤ _))
  | .interrupt => inferInstanceAs (Decidable (_ ∧ _))

end Ring

/-! ## What the layers store -/

theorem write_notMem_reads (addr start : Addr) (count : ℕ) :
    Access.write addr ∉ reads start count := by
  simp [reads]

theorem ntohs_lt (mem : Addr → Byte) (addr : Addr) : ntohs mem addr < 2 ^ 16 := by
  have high := (mem addr).isLt
  have low := (mem (addr + 1)).isLt
  unfold ntohs
  omega

/-- The only store is the one of `udp_input`, behind the IP header. -/
theorem write_mem_reInput {mem : Addr → Byte} {len : BitVec 16} {addr : Addr}
    (isIn : .write addr ∈ (reInput mem len).header ++ (reInput mem len).payload) :
    20 ≤ addr.toNat ∧ addr.toNat < 20 + 2 ^ 16 := by
  have isUdp : Access.write addr ∈ udpInput mem 20 := by
    have isNext : (0 + BitVec.ofNat 32 sizeofIp : BitVec 32) = 20 := rfl
    simp only [reInput, etherInput, List.mem_append, write_notMem_reads, false_or] at isIn
    split at isIn
    · unfold arpInput at isIn
      dsimp only at isIn
      split at isIn <;> simp [write_notMem_reads] at isIn
    · split at isIn
      · unfold ipInput at isIn
        dsimp only at isIn
        rw [isNext] at isIn
        simp only [List.mem_append, write_notMem_reads, false_or] at isIn
        split at isIn
        · unfold tcpInput at isIn
          dsimp only at isIn
          split at isIn <;> simp [write_notMem_reads] at isIn
        · split at isIn
          · exact isIn
          · contradiction
      · contradiction
  have isData : (20 + BitVec.ofNat 32 sizeofUdp : BitVec 32) = 28 := rfl
  unfold udpInput at isUdp
  dsimp only at isUdp
  rw [isData, udp_end] at isUdp
  simp only [List.mem_append, write_notMem_reads, false_or, or_false, List.mem_singleton,
    Access.write.injEq] at isUdp
  have small := ntohs_lt mem (20 + 4)
  rw [isUdp, BitVec.toNat_ofNat]
  omega

/-! ## Words -/

section

variable {mem mem' : Addr → Byte} {addr place value : ℕ}

theorem word_congr (low : mem (BitVec.ofNat 32 addr) = mem' (BitVec.ofNat 32 addr))
    (high : mem (BitVec.ofNat 32 (addr + 1)) = mem' (BitVec.ofNat 32 (addr + 1))) :
    word mem addr = word mem' addr := by
  unfold word
  rw [low, high]

theorem ofNat_ne {left right : ℕ} (leftSmall : left < 2 ^ 32) (rightSmall : right < 2 ^ 32)
    (different : left ≠ right) : BitVec.ofNat 32 left ≠ BitVec.ofNat 32 right := by
  intro same
  have sameNat := congrArg BitVec.toNat same
  rw [BitVec.toNat_ofNat, BitVec.toNat_ofNat, Nat.mod_eq_of_lt leftSmall,
    Nat.mod_eq_of_lt rightSmall] at sameNat
  exact different sameNat

theorem word_setWord (inMemory : addr + 1 < 2 ^ 32) (small : value < 2 ^ 16) :
    word (setWord mem addr value) addr = value := by
  have apart : BitVec.ofNat 32 addr ≠ BitVec.ofNat 32 (addr + 1) :=
    ofNat_ne (by omega) inMemory (by omega)
  rw [word, setWord, Function.update_of_ne apart, Function.update_self, Function.update_self,
    BitVec.toNat_ofNat, BitVec.toNat_ofNat]
  omega

theorem word_setWord_of_lt (inMemory : place + 1 < 2 ^ 32) (below : addr + 1 < place) :
    word (setWord mem place value) addr = word mem addr := by
  have keeps : ∀ byte, byte < place →
      setWord mem place value (BitVec.ofNat 32 byte) = mem (BitVec.ofNat 32 byte) := by
    intro byte isBelow
    rw [setWord, Function.update_of_ne (ofNat_ne (by omega) (by omega) (by omega)),
      Function.update_of_ne (ofNat_ne (by omega) (by omega) (by omega))]
  exact word_congr (keeps addr (by omega)) (keeps (addr + 1) below)

end

namespace Ring

variable {ring : Ring}

theorem head_lt (ring : Ring) : ring.head < 2 ^ 16 := by
  have low := (ring.mem (BitVec.ofNat 32 rxBufHead)).isLt
  have high := (ring.mem (BitVec.ofNat 32 (rxBufHead + 1))).isLt
  unfold head word
  omega

/-- Nothing is stored in the headers of the frame that is taken. -/
theorem Stores.behind {addr : Addr} (stores : ring.Stores addr) :
    ring.head + 38 ≤ addr.toNat := by
  obtain ⟨lower, upper⟩ := write_mem_reInput stores
  have bound := head_lt ring
  have isPayload : ring.payload.toNat = ring.head + 18 := by
    rw [payload, BitVec.toNat_ofNat, sizeofEther]
    omega
  rw [BitVec.toNat_sub, isPayload] at lower upper
  have small := addr.isLt
  omega

theorem handled_of_not_clears {addr : ℕ} (kept : ¬ ring.Clears addr) :
    ring.handled (BitVec.ofNat 32 addr) = ring.mem (BitVec.ofNat 32 addr) := by
  unfold handled
  split
  case isTrue stores =>
    by_contra changed
    exact kept ⟨stores, fun isZero => changed isZero.symm⟩
  case isFalse => rfl

theorem handled_of_clears {addr : ℕ} (clears : ring.Clears addr) :
    ring.handled (BitVec.ofNat 32 addr) = 0 := if_pos clears.1

/-- The length is read again when the layers have returned. -/
theorem word_handled_len : word ring.handled (ring.head + 2) = word ring.mem (ring.head + 2) := by
  have bound := head_lt ring
  have isKept : ∀ index < 38, ring.handled (BitVec.ofNat 32 (ring.head + index)) =
      ring.mem (BitVec.ofNat 32 (ring.head + index)) := by
    intro index below
    apply if_neg
    intro stores
    have isBehind := stores.behind
    rw [BitVec.toNat_ofNat] at isBehind
    omega
  exact word_congr (isKept 2 (by decide)) (isKept 3 (by decide))

/-- What the layers leave of `rx_buf_head`. -/
theorem word_handled_head : word ring.handled rxBufHead ≤ ring.head ∧
    (word ring.handled rxBufHead = ring.head ↔
      ¬ ring.Clears rxBufHead ∧ ¬ ring.Clears (rxBufHead + 1)) := by
  have cleared : ∀ addr, ring.Clears addr →
      (ring.handled (BitVec.ofNat 32 addr)).toNat = 0 ∧
        0 < (ring.mem (BitVec.ofNat 32 addr)).toNat := by
    intro addr clears
    refine ⟨by rw [handled_of_clears clears]; rfl, ?_⟩
    by_contra isZero
    exact clears.2 (BitVec.eq_of_toNat_eq (Nat.eq_zero_of_not_pos isZero))
  have kept : ∀ addr, ¬ ring.Clears addr → (ring.handled (BitVec.ofNat 32 addr)).toNat =
      (ring.mem (BitVec.ofNat 32 addr)).toNat := fun addr notCleared =>
    congrArg BitVec.toNat (handled_of_not_clears notCleared)
  unfold head word
  by_cases low : ring.Clears rxBufHead <;> by_cases high : ring.Clears (rxBufHead + 1) <;>
    simp only [low, high, cleared, kept, not_true_eq_false, not_false_eq_true, and_true,
      and_false, iff_false]
  all_goals grind

theorem input_head : ring.input.head =
    (word ring.handled rxBufHead + rounded (word ring.mem (ring.head + 2))) % 2 ^ 16 := by
  unfold head input
  rw [word_setWord (by decide) (Nat.mod_lt _ (by decide))]
  exact congrArg (fun len => (_ + rounded len) % 2 ^ 16) word_handled_len

theorem receive_head {frame : Frame} (inside : ring.offset + 4 + frame.len.toNat ≤ rxBufSize) :
    (ring.receive frame).head = ring.head := by
  have isKept : ∀ addr, rxBufSize ≤ addr → addr < 2 ^ 32 →
      (ring.receive frame).mem (BitVec.ofNat 32 addr) = ring.mem (BitVec.ofNat 32 addr) := by
    intro addr behind small
    apply if_neg
    rw [BitVec.toNat_ofNat, Nat.mod_eq_of_lt small]
    omega
  exact word_congr (isKept _ (by decide) (by decide)) (isKept _ (by decide) (by decide))

/-! ## The frames that wait -/

/-- Behind a frame the card has stored the next one, or will store it. -/
def Follows (offset : ℕ) : List (ℕ × Frame) → Prop
  | [] => True
  | entry :: rest =>
      (rest.head?.map Prod.fst).getD offset =
        (entry.1 + rounded entry.2.len.toNat) % ringSize ∧ Follows offset rest

/-- The positions of the card, and the headers of the frames that wait. -/
structure Linked (ring : Ring) : Prop where
  offset : ring.offset < ringSize ∧ 4 ∣ ring.offset
  places : ∀ entry ∈ ring.waiting, entry.1 < ringSize ∧ 4 ∣ entry.1
  lengths : ∀ entry ∈ ring.waiting, word ring.mem (entry.1 + 2) = entry.2.len.toNat
  follows : Follows ring.offset ring.waiting

theorem dvd_rounded (len : ℕ) : 4 ∣ rounded len := ⟨(len + 4 + 3) / 4, Nat.mul_comm _ _⟩

theorem wrapped (place len : ℕ) (aligned : 4 ∣ place) :
    (place + rounded len) % ringSize < ringSize ∧ 4 ∣ (place + rounded len) % ringSize := by
  refine ⟨Nat.mod_lt _ (by decide), ?_⟩
  rw [Nat.dvd_mod_iff (by decide)]
  exact Nat.dvd_add aligned (dvd_rounded len)

theorem next_append {waiting : List (ℕ × Frame)} {entry : ℕ × Frame} (offset : ℕ) :
    ((waiting ++ [entry]).head?.map Prod.fst).getD offset =
      (waiting.head?.map Prod.fst).getD entry.1 := by
  cases waiting <;> rfl

theorem Follows.append {waiting : List (ℕ × Frame)} {offset : ℕ} (frame : Frame)
    (follows : Follows offset waiting) :
    Follows ((offset + rounded frame.len.toNat) % ringSize) (waiting ++ [(offset, frame)]) := by
  induction waiting with
  | nil => exact ⟨rfl, trivial⟩
  | cons first waiting ih =>
      refine ⟨?_, ih follows.2⟩
      exact (next_append _).trans follows.1

theorem linked_start (mem : Addr → Byte) : (start mem).Linked where
  offset := ⟨Nat.zero_lt_succ 8191, Nat.dvd_zero 4⟩
  places := by simp [start]
  lengths := by simp [start]
  follows := trivial

theorem word_image {frame : Frame} :
    (frame.image 2).toNat + 256 * (frame.image 3).toNat = frame.len.toNat := by
  have small := frame.len.isLt
  simp only [Frame.image, BitVec.toNat_setWidth, BitVec.toNat_ushiftRight,
    Nat.shiftRight_eq_div_pow]
  omega

theorem Linked.receive {frame : Frame} (linked : ring.Linked)
    (spares : ring.Spares (.receive frame)) : (ring.receive frame).Linked := by
  have offsetSmall : ring.offset < ringSize := linked.offset.1
  have short := frame.short
  refine ⟨wrapped _ _ linked.offset.2, ?_, ?_, linked.follows.append frame⟩
  · intro entry isIn
    rcases List.mem_append.mp isIn with isIn | isIn
    · exact linked.places entry isIn
    · cases List.mem_singleton.mp isIn
      exact linked.offset
  · intro entry isIn
    rcases List.mem_append.mp isIn with isIn | isIn
    · have placeSmall := (linked.places entry isIn).1
      rw [ringSize] at placeSmall
      have apart := spares entry isIn
      rw [← linked.lengths entry isIn]
      apply word_congr
      all_goals
        apply if_neg
        rw [BitVec.toNat_ofNat]
        omega
    · cases List.mem_singleton.mp isIn
      rw [ringSize] at offsetSmall
      have isStored : ∀ index < 4,
          (ring.receive frame).mem (BitVec.ofNat 32 (ring.offset + index)) = frame.image index := by
        intro index below
        have isAddr : (BitVec.ofNat 32 (ring.offset + index)).toNat = ring.offset + index := by
          rw [BitVec.toNat_ofNat]
          omega
        change (if _ then _ else _) = _
        rw [isAddr, if_pos (by omega), Nat.add_sub_cancel_left]
      rw [word, isStored 2 (by decide), isStored 3 (by decide), word_image]

theorem Linked.input (linked : ring.Linked) (spares : ring.Spares .interrupt) :
    ring.input.Linked := by
  refine ⟨linked.offset, ?_, ?_, ?_⟩
  · intro entry isIn
    exact linked.places entry (List.mem_of_mem_tail isIn)
  · intro entry isIn
    have isWaiting := List.mem_of_mem_tail isIn
    have placeSmall := (linked.places entry isWaiting).1
    have below : entry.1 + 2 + 1 < rxBufHead := by
      rw [ringSize] at placeSmall
      rw [rxBufHead, rxBufSize]
      omega
    have kept := spares entry isIn
    rw [← linked.lengths entry isWaiting]
    refine (word_setWord_of_lt (by decide) below).trans ?_
    exact word_congr (handled_of_not_clears kept.1) (handled_of_not_clears kept.2)
  · have follows := linked.follows
    unfold Ring.input
    rcases isWaiting : ring.waiting with _ | ⟨first, rest⟩
    · trivial
    · rw [isWaiting] at follows
      exact follows.2

/-! ## The position -/

theorem synced_start (mem : Addr → Byte) : (start mem).Synced := by
  have isZero : (start mem).head = 0 := rfl
  refine ⟨isZero, ?_, by simp [start]⟩
  rw [isZero]
  exact Nat.dvd_zero 4

theorem receive_synced_iff {frame : Frame} (synced : ring.Synced) :
    (ring.receive frame).Synced ↔ ring.Goes (.receive frame) := by
  constructor
  · intro after
    exact after.inside (ring.offset, frame) (List.mem_append_right _ List.mem_cons_self)
  · intro inside
    refine ⟨?_, ?_, ?_⟩
    · rw [receive_head inside, synced.position]
      exact (@next_append ring.waiting (ring.offset, frame) _).symm
    · rw [receive_head inside]
      exact synced.aligned
    · intro entry isIn
      rcases List.mem_append.mp isIn with isIn | isIn
      · exact synced.inside entry isIn
      · cases List.mem_singleton.mp isIn
        exact inside

theorem input_synced_iff (linked : ring.Linked) (synced : ring.Synced)
    (isWaiting : ring.waiting ≠ []) : ring.input.Synced ↔ ring.Goes .interrupt := by
  obtain ⟨first, rest, waitingIs⟩ := List.exists_cons_of_ne_nil isWaiting
  have isFirst : first ∈ ring.waiting := by
    rw [waitingIs]
    exact List.mem_cons_self
  have nextIs : ring.next = first.1 := by
    rw [next, waitingIs]
    rfl
  have headIs : ring.head = first.1 := synced.position.trans nextIs
  have isLength := linked.lengths first isFirst
  have isBehind : ring.input.next = (first.1 + rounded first.2.len.toNat) % ringSize := by
    have follows := linked.follows
    rw [waitingIs] at follows
    rw [next, Ring.input, waitingIs]
    exact follows.1
  obtain ⟨place, aligned⟩ := linked.places first isFirst
  obtain ⟨lowered, sparesHead⟩ := ring.word_handled_head
  have short := first.2.short
  have longest : rounded first.2.len.toNat ≤ 1524 := by
    unfold rounded
    omega
  have inputHead := ring.input_head
  rw [headIs, isLength] at inputHead
  rw [headIs] at lowered sparesHead
  -- The position is never more than the sum, and the card's is less where it wraps.
  have positions : ring.input.head = ring.input.next ↔
      first.1 + rounded first.2.len.toNat < ringSize ∧
        word ring.handled rxBufHead = first.1 := by
    rw [inputHead, isBehind]
    rw [ringSize] at place ⊢
    omega
  have goes : ring.Goes .interrupt ↔ ring.input.head = ring.input.next := by
    rw [positions, sparesHead, Goes, nextIs, isLength]
  rw [goes]
  refine ⟨fun after => after.position, fun position => ⟨position, ?_, ?_⟩⟩
  · rw [position, isBehind]
    exact (wrapped _ _ aligned).2
  · intro entry isIn
    exact synced.inside entry (List.mem_of_mem_tail isIn)

/-- The condition on a step. -/
def Allowed (ring : Ring) (event : Event) : Prop := ring.Spares event ∧ ring.Goes event

instance (ring : Ring) (event : Event) : Decidable (ring.Allowed event) :=
  inferInstanceAs (Decidable (_ ∧ _))

theorem step_linked {ring' : Ring} {event : Event} (linked : ring.Linked)
    (spares : ring.Spares event) (stepped : ring.step event = some ring') : ring'.Linked := by
  cases event with
  | receive frame =>
      cases stepped
      exact linked.receive spares
  | interrupt =>
      rw [step] at stepped
      split at stepped
      · contradiction
      · cases stepped
        exact linked.input spares

theorem step_synced_iff {ring' : Ring} {event : Event} (linked : ring.Linked)
    (synced : ring.Synced) (stepped : ring.step event = some ring') :
    ring'.Synced ↔ ring.Goes event := by
  cases event with
  | receive frame =>
      cases stepped
      exact receive_synced_iff synced
  | interrupt =>
      rw [step] at stepped
      split at stepped
      · contradiction
      · rename_i isWaiting
        cases stepped
        exact input_synced_iff linked synced isWaiting

theorem reach_linked {mem : Addr → Byte}
    (reach : Transition.Reach step Allowed (start mem) ring) : ring.Linked ∧ ring.Synced := by
  apply reach.invariant ⟨linked_start mem, synced_start mem⟩
  rintro ring ring' event ⟨linked, synced⟩ ⟨spares, goes⟩ stepped
  exact ⟨step_linked linked spares stepped, (step_synced_iff linked synced stepped).mpr goes⟩

/--
In every run whose steps meet the condition the position is that of the next frame, and a
further step keeps it so if and only if it meets the condition, too.
-/
theorem synced_of_reach (mem : Addr → Byte) (ring : Ring)
    (reach : Transition.Reach step Allowed (start mem) ring) :
    ring.Synced ∧ ∀ event ring', ring.step event = some ring' →
      (ring'.Synced ↔ ring.Goes event) := by
  obtain ⟨linked, synced⟩ := reach_linked reach
  refine ⟨synced, fun event ring' stepped => ?_⟩
  exact step_synced_iff linked synced stepped

/-- A frame without data. -/
def blank (len : BitVec 16) (short : len.toNat ≤ 1514 + 4) : Frame where
  header := 1
  len := len
  data _ := 0
  short := short

/-- The second frame arrives while the first waits, the third when the first has been taken. -/
def threeFrames : List Event :=
  [.receive (blank 64 (by decide)), .receive (blank 100 (by decide)), .interrupt,
    .receive (blank 200 (by decide)), .interrupt, .interrupt]

theorem synced_of_reach_threeFrames :
    ∃ ring, Transition.Reach step Allowed (start fun _ => 0) ring ∧ ring.head = 376 ∧
      ring.Synced := by
  have observed : (Transition.runChecked step (fun ring event => decide (ring.Allowed event))
      (start fun _ => 0) threeFrames).any (fun ring => decide (ring.head = 376)) = true := by
    decide +kernel
  obtain ⟨ring, reach, isHead⟩ :=
    Transition.reach_of_observedChecked (fun _ _ => of_decide_eq_true) observed
  exact ⟨ring, reach, of_decide_eq_true isHead, (synced_of_reach _ ring reach).1⟩

/-- As long as the position is right the card has room for a long frame before it wraps. -/
theorem long_frame {mem : Addr → Byte} {count : ℕ}
    (all : ∀ ring, Transition.Reach step Transition.Always (start mem) ring → ring.Synced) :
    ∃ ring, Transition.Reach step Transition.Always (start mem) ring ∧ ring.Linked ∧
      ring.waiting = [] ∧ ring.offset = 1524 * count := by
  induction count with
  | zero => exact ⟨_, .start, linked_start mem, rfl, rfl⟩
  | succ count ih =>
      obtain ⟨ring, reach, linked, nothing, offsetIs⟩ := ih
      let long := blank 1518 (by decide)
      have linked' : (ring.receive long).Linked := by
        apply linked.receive
        intro entry isIn
        rw [nothing] at isIn
        contradiction
      have waitingIs : (ring.receive long).waiting = [(ring.offset, long)] := by
        rw [Ring.receive, nothing]
        rfl
      have spares : (ring.receive long).Spares .interrupt := by
        intro entry isIn
        rw [waitingIs] at isIn
        contradiction
      have received := reach.next trivial (show ring.step (.receive long) = _ from rfl)
      have isWaiting : (ring.receive long).waiting ≠ [] := by
        rw [waitingIs]
        exact List.cons_ne_nil _ _
      have taken := received.next trivial
        (show (ring.receive long).step .interrupt = some _ from if_neg isWaiting)
      obtain ⟨below, -⟩ :=
        (input_synced_iff linked' (all _ received) isWaiting).mp (all _ taken)
      have nextIs : (ring.receive long).next = ring.offset := by
        rw [next, waitingIs]
        rfl
      have lengthIs : word (ring.receive long).mem (ring.offset + 2) = 1518 := by
        apply linked'.lengths (ring.offset, long)
        rw [waitingIs]
        exact List.mem_cons_self
      have isRounded : rounded 1518 = 1524 := rfl
      have isLong : long.len.toNat = 1518 := rfl
      rw [nextIs, lengthIs, isRounded] at below
      refine ⟨_, taken, linked'.input spares, ?_, ?_⟩
      · exact congrArg List.tail waitingIs
      · change (ring.offset + rounded long.len.toNat) % ringSize = _
        rw [isLong, isRounded, Nat.mod_eq_of_lt below, offsetIs, Nat.mul_succ]

theorem not_synced_all : ¬ ∀ (mem : Addr → Byte) (ring : Ring),
    Transition.Reach step Transition.Always (start mem) ring → ring.Synced := by
  intro all
  obtain ⟨ring, -, linked, -, offsetIs⟩ := @long_frame (fun _ => 0) 6 (all _)
  have below := linked.offset.1
  rw [offsetIs, ringSize] at below
  omega

end Ring

end Osix.Net
