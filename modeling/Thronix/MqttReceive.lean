import Mathlib.Algebra.BigOperators.Intervals
import Mathlib.Algebra.BigOperators.Ring.Finset
import Mathlib.Tactic.Ring
import Thronix.MqttPacket

/-!
# Thronix.MqttReceive — what `mqp_recv` reads from a stream, however the bytes come

* `remainingLength`, `HeaderEnds`: the fixed header at the front of a stream; `bufRdRemlen_eq`: the loop of
  `buf_rd_remlen` adds up the seven low bits of each byte.
* `Reading`: how far a packet is filled from a stream; it holds before and after each call.
* `Onward`: what a call takes from the socket.
* `Outcome`: what each result of a call says about the stream.
* `mqpRecv_spec`: one call; `receive_spec`: calls until one of them does not time out.
* `receive_front`: what is received is what stands at the front of the stream, `Front`.  A fifth byte of the remaining
  length is taken as a part of the header, and not counted.
-/

namespace Thronix.Mqp

open scoped BigOperators
open Thronix.Lib
open Thronix.Lib.Buffer
open Thronix.Json

/-! ## The socket -/

def Answer.brings : Answer → Bool
  | .data _ => true
  | _ => false

/-- How many answers bring a byte at least, if there is one. -/
def Net.bringing (net : Net) : ℕ := net.answers.countP Answer.brings

/-- What has come into a packet. -/
def MqttPacket.held (m : MqttPacket) : ℕ := m.fhLen + m.plLen

/-- Why a `recv` gives nothing. -/
def Failing (net net' : Net) (got : Got) : Prop :=
  got = .timedOut ∧ (net'.answers = [] ∨ net'.answers.length < net.answers.length) ∨
    got = .network ∧ .failed ∈ net.answers

structure Onward (m : MqttPacket) (net : Net) (m' : MqttPacket) (net' : Net) : Prop where
  maxlen : m'.maxlen = m.maxlen
  held : m.held ≤ m'.held
  stream : net'.stream <:+ net.stream
  answers : net'.answers <:+ net.answers
  counts : net'.stream ≠ [] → net.bringing + m.held ≤ net'.bringing + m'.held

section Socket

variable {net net' net'' : Net} {m m' m'' : MqttPacket} {got : Got} {len : ℕ}

theorem Onward.refl (m : MqttPacket) (net : Net) : Onward m net m net :=
  ⟨rfl, le_refl _, List.suffix_refl _, List.suffix_refl _, fun _ => le_refl _⟩

theorem Onward.trans (h : Onward m net m' net') (h' : Onward m' net' m'' net'') : Onward m net m'' net'' := by
  refine ⟨h'.maxlen.trans h.maxlen, h.held.trans h'.held, h'.stream.trans h.stream, h'.answers.trans h.answers,
    fun hne => ?_⟩
  have hne' : net'.stream ≠ [] := by
    rintro heq
    have hsub := h'.stream
    rw [heq] at hsub
    exact hne (List.suffix_nil.mp hsub)
  have h1 := h.counts hne'
  have h2 := h'.counts hne
  omega

theorem Failing.weaken (h : Failing net' net'' got) (hsub : net'.answers <:+ net.answers) : Failing net net'' got := by
  rcases h with ⟨hgot, hless⟩ | ⟨hgot, hfail⟩
  · have hlen := hsub.length_le
    exact Or.inl ⟨hgot, hless.imp_right fun h => by omega⟩
  · exact Or.inr ⟨hgot, hsub.subset hfail⟩

/-- A `recv` gives nothing, or some of the next bytes of the stream. -/
theorem recv_cases (net : Net) (hlen : 0 < len) :
    (∃ got net', net.recv len = (.error got, net') ∧ net'.stream = net.stream ∧ net'.answers <:+ net.answers ∧
        (net.stream ≠ [] → net.bringing ≤ net'.bringing) ∧ Failing net net' got) ∨
      ∃ bs net', net.recv len = (.ok bs, net') ∧ 0 < bs.length ∧ bs.length ≤ len ∧ net.stream = bs ++ net'.stream ∧
        net'.answers <:+ net.answers ∧ net.bringing ≤ net'.bringing + 1 := by
  obtain ⟨stream, answers⟩ := net
  cases answers with
  | nil => exact Or.inl ⟨_, _, rfl, rfl, List.suffix_refl _, fun _ => le_refl _, Or.inl ⟨rfl, Or.inl rfl⟩⟩
  | cons answer answers =>
    have hsub : answers <:+ answer :: answers := List.suffix_cons answer answers
    have hless : answers.length < (answer :: answers).length := Nat.lt_succ_self _
    cases answer with
    | timeout =>
      refine Or.inl ⟨.timedOut, ⟨stream, answers⟩, rfl, rfl, hsub, fun _ => ?_, Or.inl ⟨rfl, Or.inr hless⟩⟩
      exact (List.countP_cons_of_neg (by decide)).le
    | failed =>
      refine Or.inl ⟨.network, ⟨stream, answers⟩, rfl, rfl, hsub, fun _ => ?_, Or.inr ⟨rfl, List.mem_cons_self⟩⟩
      exact (List.countP_cons_of_neg (by decide)).le
    | data more =>
      have hcount : (⟨stream, .data more :: answers⟩ : Net).bringing = (⟨stream, answers⟩ : Net).bringing + 1 :=
        List.countP_cons_of_pos rfl
      by_cases hnil : stream = []
      · refine Or.inl ⟨.timedOut, ⟨stream, answers⟩, if_pos hnil, rfl, hsub, fun h => absurd hnil h,
          Or.inl ⟨rfl, Or.inr hless⟩⟩
      · have hpos := List.length_pos_iff.mpr hnil
        refine Or.inr ⟨stream.take (min (more + 1) len), ⟨stream.drop (min (more + 1) len), answers⟩, if_neg hnil, ?_,
          ?_, (List.take_append_drop _ _).symm, hsub, hcount.le⟩
        · rw [List.length_take]
          omega
        · rw [List.length_take]
          omega

end Socket

/-! ## The fixed header -/

/-- There is a byte at a place, and its top bit tells that another byte of the remaining length follows. -/
def More (s : Bytes) (i : ℕ) : Prop := ∃ b, s[i]? = some b ∧ b &&& 0x80 ≠ 0

/-- The number in the `n` bytes behind the first: seven bits of each, the lowest first. -/
def remainingLength (s : Bytes) (n : ℕ) : ℕ := ∑ i ∈ Finset.range n, (s.getD (i + 1) 0 &&& 0x7F).toNat * 128 ^ i

/-- The fixed header at the front of `s` has `h` bytes; `r` is the remaining length, without a fifth byte of it. -/
structure HeaderEnds (s : Bytes) (h r : ℕ) : Prop where
  two : 2 ≤ h
  six : h ≤ MAX_FH_LEN + 1
  more : ∀ i, 1 ≤ i → i + 1 < h → More s i
  last : ∃ b, s[h - 1]? = some b ∧ b &&& 0x80 = 0
  remlen : r = remainingLength s (min (h - 1) MAX_REMLEN_BYTES)

/-- No fixed header ends. -/
def Endless (s : Bytes) : Prop := ∀ i, 1 ≤ i → i ≤ MAX_FH_LEN → More s i

theorem not_more {s : Bytes} {i : ℕ} (h : ∃ b, s[i]? = some b ∧ b &&& 0x80 = 0) : ¬More s i := by
  rintro ⟨b, hb, hmore⟩
  obtain ⟨b', hb', htop⟩ := h
  rw [hb, Option.some.injEq] at hb'
  exact hmore (hb' ▸ htop)

theorem HeaderEnds.unique {s : Bytes} {h h' r r' : ℕ} (he : HeaderEnds s h r) (he' : HeaderEnds s h' r') :
    h = h' ∧ r = r' := by
  have htwo := he.two
  have htwo' := he'.two
  have heq : h = h' := by
    rcases Nat.lt_trichotomy h h' with hlt | heq | hlt
    · exact absurd (he'.more (h - 1) (by omega) (by omega)) (not_more he.last)
    · exact heq
    · exact absurd (he.more (h' - 1) (by omega) (by omega)) (not_more he'.last)
  subst heq
  exact ⟨rfl, he.remlen.trans he'.remlen.symm⟩

theorem HeaderEnds.not_endless {s : Bytes} {h r : ℕ} (he : HeaderEnds s h r) : ¬Endless s := by
  have htwo := he.two
  have hsix := he.six
  exact fun hend => not_more he.last (hend (h - 1) (by omega) (by omega))

/-- The loop of `buf_rd_remlen` in a buffer with the fixed header of `s`: it adds up the bytes from `i` to the last one
of the header, but no more than `left` of them. -/
theorem bufRdRemlen_eq {s : Bytes} {e : ℕ} (buf : Bytes) (left i val mul : ℕ) (hi : i ≤ e)
    (hmore : ∀ j, i ≤ j → j < e → More s j) (hlast : ∃ b, s[e]? = some b ∧ b &&& 0x80 = 0)
    (heq : ∀ j ≤ e, buf[j]? = s[j]?) :
    bufRdRemlen buf left i val mul = some (val +
      (∑ j ∈ Finset.range (min left (e + 1 - i)), (s.getD (i + j) 0 &&& 0x7F).toNat * 128 ^ j) * 2 ^ mul) := by
  induction left generalizing i val mul with
  | zero => rw [Nat.zero_min, Finset.sum_range_zero, Nat.zero_mul, Nat.add_zero, bufRdRemlen]
  | succ left ih =>
    unfold bufRdRemlen
    by_cases hend : i = e
    · -- the last byte of the header
      subst hend
      obtain ⟨b, hb, htop⟩ := hlast
      have hd : s.getD i 0 = b := by rw [List.getD_eq_getElem?_getD, hb, Option.getD_some]
      rw [heq i (le_refl i), hb, Option.bind_some]
      dsimp only
      rw [if_neg (not_not.mpr htop), Nat.add_sub_cancel_left, Nat.min_eq_right (Nat.succ_le_succ (Nat.zero_le left)),
        Finset.sum_range_one, Nat.add_zero, hd, pow_zero, Nat.mul_one, Nat.shiftLeft_eq]
    · obtain ⟨b, hb, htop⟩ := hmore i (le_refl i) (by omega)
      have hd : s.getD i 0 = b := by rw [List.getD_eq_getElem?_getD, hb, Option.getD_some]
      have hcount : min (left + 1) (e + 1 - i) = min left (e + 1 - (i + 1)) + 1 := by omega
      rw [heq i hi, hb, Option.bind_some]
      dsimp only
      rw [if_pos htop, ih (i + 1) _ _ (by omega) (fun j h1 h2 => hmore j (by omega) h2), hcount]
      -- the byte at `i` is the lowest; the others count 128 times as much as behind it
      have hsum (k : ℕ) : ∑ j ∈ Finset.range (k + 1), (s.getD (i + j) 0 &&& 0x7F).toNat * 128 ^ j =
          (∑ j ∈ Finset.range k, (s.getD (i + 1 + j) 0 &&& 0x7F).toNat * 128 ^ j) * 128 + (b &&& 0x7F).toNat := by
        rw [Finset.sum_range_succ', Nat.add_zero, hd, pow_zero, Nat.mul_one, Finset.sum_mul]
        congr 1
        refine Finset.sum_congr rfl fun j _ => ?_
        rw [Nat.add_right_comm i 1 j, Nat.add_assoc i j 1, pow_succ, Nat.mul_assoc]
      rw [hsum, Nat.shiftLeft_eq, pow_add]
      congr 1
      ring

/-- What is read of the remaining length of a header is what its bytes stand for. -/
theorem bufRdRemlen_header {s : Bytes} {h : ℕ} (buf : Bytes) (htwo : 2 ≤ h)
    (hmore : ∀ i, 1 ≤ i → i + 1 < h → More s i) (hlast : ∃ b, s[h - 1]? = some b ∧ b &&& 0x80 = 0)
    (heq : ∀ j < h, buf[j]? = s[j]?) :
    bufRdRemlen buf MAX_REMLEN_BYTES 1 0 0 = some (remainingLength s (min (h - 1) MAX_REMLEN_BYTES)) := by
  rw [bufRdRemlen_eq buf MAX_REMLEN_BYTES 1 0 0 (show 1 ≤ h - 1 by omega) (fun j h1 h2 => hmore j h1 (by omega)) hlast
    (fun j hj => heq j (by omega)), Nat.zero_add, pow_zero, Nat.mul_one, Nat.add_sub_cancel, Nat.min_comm]
  unfold remainingLength
  congr 1
  exact Finset.sum_congr rfl fun j _ => by rw [Nat.add_comm 1 j]

/-! ## A packet that is being filled -/

/-- How far a packet is filled from the stream `s`; what is left of the stream is still to come. -/
structure Reading (s : Bytes) (m : MqttPacket) (net : Net) : Prop where
  offset : m.offset = 0
  vhLen : m.vhLen = 0
  msgId : m.msgId = 0
  size : m.buffer.length = m.maxlen
  room : MAX_FH_LEN < m.maxlen
  within : m.held ≤ s.length
  bytes : At m.buffer 0 (s.take m.held)
  left : net.stream = s.drop m.held
  fhLen : m.fhLen ≤ MAX_FH_LEN + 1
  more : ∀ i, 1 ≤ i → i + 1 < m.fhLen → More s i
  payload : m.plLen ≠ 0 → ∃ r, HeaderEnds s m.fhLen r ∧ m.plLen ≤ r ∧ m.fhLen + r ≤ m.maxlen

section Reading

variable {s bs : Bytes} {m : MqttPacket} {net net' : Net} {i : ℕ}

theorem reading_alloc (type : ℕ) (s : Bytes) (answers : List Answer) {maxlen : ℕ} {buf : Bytes}
    (hbuf : buf.length = maxlen) (hroom : MAX_FH_LEN < maxlen) :
    Reading s (mqpClientAlloc type 0 maxlen buf) ⟨s, answers⟩ :=
  ⟨rfl, rfl, rfl, hbuf, hroom, Nat.zero_le _, at_nil, rfl, Nat.zero_le _,
    fun _ _ hi => absurd hi (Nat.not_lt_zero _), fun h => absurd rfl h⟩

theorem Reading.getElem?_eq (h : Reading s m net) (hi : i < m.held) : m.buffer[i]? = s[i]? := by
  have hwithin := h.within
  have hat := h.bytes i (by rw [List.length_take]; omega)
  rw [Nat.zero_add, List.getElem?_take_of_lt hi] at hat
  exact hat

/-- The bytes that come next go where the buffer is filled to. -/
theorem Reading.store (h : Reading s m net) (hbs : net.stream = bs ++ net'.stream)
    (hroom : m.held + bs.length ≤ m.maxlen) :
    ∃ buf, store m.buffer m.held bs = some buf ∧ buf.length = m.maxlen ∧ m.held + bs.length ≤ s.length ∧
      At buf 0 (s.take (m.held + bs.length)) ∧ net'.stream = s.drop (m.held + bs.length) := by
  have hsize := h.size
  have hwithin := h.within
  have hleft := h.left
  rw [hbs] at hleft
  have hnext : (s.drop m.held).take bs.length = bs := by rw [← hleft, List.take_left]
  have hlen := congrArg List.length hleft
  rw [List.length_append, List.length_drop] at hlen
  obtain ⟨buf, hstore⟩ : ∃ buf, Buffer.store m.buffer m.held bs = some buf := ⟨_, store_of_le (by omega)⟩
  obtain ⟨-, hl, hat, -⟩ := store_spec hstore
  refine ⟨buf, hstore, by rw [hl, hsize], by omega, ?_, ?_⟩
  · have hpre : (s.take m.held).length = m.held := by
      rw [List.length_take]
      omega
    rw [List.take_add, hnext]
    refine at_append.mpr ⟨h.bytes.store hstore (Or.inl (by omega)), ?_⟩
    rw [hpre, Nat.zero_add]
    exact hat
  · rw [← List.drop_drop, ← hleft, List.drop_left]

/-- One more byte of the fixed header. -/
theorem Reading.header (h : Reading s m net) (hnet : net.stream = bs ++ net'.stream) (hone : bs.length = 1)
    (hpl : m.plLen = 0) (hfh : m.fhLen ≤ MAX_FH_LEN) (hlast : 2 ≤ m.fhLen → More s (m.fhLen - 1)) :
    ∃ buf, Buffer.store m.buffer (m.fheaderBuf + m.fhLen) bs = some buf ∧
      Reading s { m with buffer := buf, fhLen := m.fhLen + 1 } net' := by
  have hroom := h.room
  have hheld : m.held = m.fhLen := by unfold MqttPacket.held; omega
  have hat : m.fheaderBuf + m.fhLen = m.held := by
    rw [hheld]
    unfold MqttPacket.fheaderBuf
    rw [h.offset, Nat.zero_add]
  obtain ⟨buf, hstore, hl, hwithin, hbytes, hleft⟩ := h.store hnet (by omega)
  have hheld' : ({ m with buffer := buf, fhLen := m.fhLen + 1 } : MqttPacket).held = m.held + bs.length := by
    unfold MqttPacket.held
    dsimp only
    omega
  refine ⟨buf, hat ▸ hstore, h.offset, h.vhLen, h.msgId, hl, hroom, hheld' ▸ hwithin, hheld' ▸ hbytes, hheld' ▸ hleft,
    by dsimp only; omega, fun i h1 h2 => ?_, fun hne => absurd hpl hne⟩
  by_cases hnew : i + 1 < m.fhLen
  · exact h.more i h1 hnew
  · dsimp only at h2
    obtain rfl : i = m.fhLen - 1 := by omega
    exact hlast (by omega)

/-- More bytes behind the fixed header. -/
theorem Reading.behind {r : ℕ} (h : Reading s m net) (hnet : net.stream = bs ++ net'.stream)
    (hends : HeaderEnds s m.fhLen r) (hfit : m.fhLen + r ≤ m.maxlen) (hroom : m.plLen + bs.length ≤ r) :
    ∃ buf, Buffer.store m.buffer (m.vheaderBuf + m.plLen) bs = some buf ∧
      Reading s { m with buffer := buf, plLen := m.plLen + bs.length } net' := by
  have hheld : m.held = m.fhLen + m.plLen := rfl
  have hat : m.vheaderBuf + m.plLen = m.held := by
    unfold MqttPacket.vheaderBuf MqttPacket.fheaderBuf
    rw [h.offset, Nat.zero_add, hheld]
  obtain ⟨buf, hstore, hl, hwithin, hbytes, hleft⟩ := h.store hnet (by omega)
  have hheld' : ({ m with buffer := buf, plLen := m.plLen + bs.length } : MqttPacket).held = m.held + bs.length :=
    (Nat.add_assoc m.fhLen m.plLen bs.length).symm
  exact ⟨buf, hat ▸ hstore, h.offset, h.vhLen, h.msgId, hl, h.room, hheld' ▸ hwithin, hheld' ▸ hbytes, hheld' ▸ hleft,
    h.fhLen, h.more, fun _ => ⟨r, hends, hroom, hfit⟩⟩

end Reading

/-- Bytes are missing. -/
def Unfinished (s : Bytes) (m : MqttPacket) : Prop :=
  m.plLen = 0 ∧ m.fhLen ≤ MAX_FH_LEN ∧ (2 ≤ m.fhLen → More s (m.fhLen - 1)) ∨
    ∃ r, HeaderEnds s m.fhLen r ∧ m.plLen < r ∧ m.fhLen + r ≤ m.maxlen

/-! ## The loops -/

section Loops

variable {s : Bytes} {m : MqttPacket} {net : Net} {remlen : ℕ}

theorem onward_bytes {m' : MqttPacket} {net' : Net} {bs : Bytes} (hmax : m'.maxlen = m.maxlen)
    (hheld : m'.held = m.held + bs.length) (hpos : 0 < bs.length) (hnet : net.stream = bs ++ net'.stream)
    (hsub : net'.answers <:+ net.answers) (hcount : net.bringing ≤ net'.bringing + 1) : Onward m net m' net' :=
  ⟨hmax, by omega, hnet ▸ List.suffix_append bs net'.stream, hsub, fun _ => by omega⟩

theorem onward_header {buf bs : Bytes} {net' : Net} (hone : bs.length = 1) (hnet : net.stream = bs ++ net'.stream)
    (hsub : net'.answers <:+ net.answers) (hcount : net.bringing ≤ net'.bringing + 1) :
    Onward m net { m with buffer := buf, fhLen := m.fhLen + 1 } net' := by
  refine onward_bytes rfl ?_ (by omega) hnet hsub hcount
  unfold MqttPacket.held
  dsimp only
  omega

theorem onward_nothing {net' : Net} (hstream : net'.stream = net.stream) (hsub : net'.answers <:+ net.answers)
    (hcount : net.stream ≠ [] → net.bringing ≤ net'.bringing) : Onward m net m net' :=
  ⟨rfl, le_refl _, hstream ▸ List.suffix_refl _, hsub, fun hne => Nat.add_le_add_right (hcount (hstream ▸ hne)) _⟩

theorem Reading.stays {net' : Net} (h : Reading s m net) (hstream : net'.stream = net.stream) : Reading s m net' :=
  ⟨h.offset, h.vhLen, h.msgId, h.size, h.room, h.within, h.bytes, hstream.trans h.left, h.fhLen, h.more, h.payload⟩

theorem recvFhStart_spec (turns : ℕ) (h : Reading s m net) (hturns : 2 - m.fhLen < turns) :
    ∃ m' net' stop, recvFhStart turns m net = some (m', net', stop) ∧ Reading s m' net' ∧ Onward m net m' net' ∧
      (stop = none → 2 ≤ m'.fhLen) ∧ ∀ got, stop = some got → Failing net net' got ∧ Unfinished s m' := by
  induction turns generalizing m net with
  | zero => exact absurd hturns (Nat.not_lt_zero _)
  | succ turns ih =>
    unfold recvFhStart
    by_cases hmore : 2 > m.fhLen
    · have hmax : MAX_FH_LEN = 5 := rfl
      have hpl : m.plLen = 0 := by
        by_contra hne
        obtain ⟨r, hends, -⟩ := h.payload hne
        have htwo := hends.two
        omega
      rw [if_pos hmore]
      rcases recv_cases net Nat.one_pos with ⟨got, net', hrecv, hstream, hsub, hcount, hfail⟩ |
        ⟨bs, net', hrecv, hpos, hle, hbs, hsub, hcount⟩
      · rw [hrecv]
        exact ⟨m, net', some got, rfl, h.stays hstream, onward_nothing hstream hsub hcount,
          fun h => absurd h (Option.some_ne_none _), fun _ heq =>
            ⟨Option.some.inj heq ▸ hfail, Or.inl ⟨hpl, by omega, fun h => absurd h (by omega)⟩⟩⟩
      · obtain ⟨buf, hstore, hread⟩ := h.header hbs (by omega) hpl (by omega) (fun h => absurd h (by omega))
        rw [hrecv]
        dsimp only
        rw [hstore, Option.bind_some]
        obtain ⟨m', net'', stop, heq, hread', hon, hnone, hsome⟩ := ih hread (by dsimp only; omega)
        exact ⟨m', net'', stop, heq, hread', (onward_header (by omega) hbs hsub hcount).trans hon, hnone,
          fun got hgot => (hsome got hgot).imp_left fun hfail => hfail.weaken hsub⟩
    · rw [if_neg hmore]
      exact ⟨m, net, none, rfl, h, Onward.refl m net, fun _ => by omega, fun _ heq => nomatch heq⟩

theorem recvFhMore_spec (turns : ℕ) (h : Reading s m net) (htwo : 2 ≤ m.fhLen)
    (hturns : MAX_FH_LEN + 1 - m.fhLen < turns) :
    ∃ m' net' stop, recvFhMore turns m net = some (m', net', stop) ∧ Reading s m' net' ∧ Onward m net m' net' ∧
      (stop = none → 2 ≤ m'.fhLen ∧ ∃ b, s[m'.fhLen - 1]? = some b ∧ b &&& 0x80 = 0) ∧
      ∀ got, stop = some got → Failing net net' got ∧ Unfinished s m' ∨
        got = .notDef ∧ Endless s ∧ m'.held = MAX_FH_LEN + 1 := by
  induction turns generalizing m net with
  | zero => exact absurd hturns (Nat.not_lt_zero _)
  | succ turns ih =>
    have hheld : m.fhLen ≤ m.held := Nat.le_add_right _ _
    have hwithin := h.within
    obtain ⟨last, hlast⟩ : ∃ b, s[m.fhLen - 1]? = some b := ⟨_, List.getElem?_eq_getElem (by omega)⟩
    have hbuf : m.buffer[m.fheaderBuf + m.fhLen - 1]? = some last := by
      unfold MqttPacket.fheaderBuf
      rw [h.offset, Nat.zero_add, h.getElem?_eq (by omega), hlast]
    unfold recvFhMore
    rw [hbuf, Option.bind_some]
    by_cases hmore : last &&& 0x80 ≠ 0
    · have hpl : m.plLen = 0 := by
        by_contra hne
        obtain ⟨r, hends, -⟩ := h.payload hne
        exact not_more hends.last ⟨last, hlast, hmore⟩
      rw [if_pos hmore]
      by_cases hlong : m.fhLen > MAX_FH_LEN
      · have hfh := h.fhLen
        rw [if_pos hlong]
        refine ⟨m, net, _, rfl, h, Onward.refl m net, fun h => absurd h (Option.some_ne_none _), fun got heq =>
          Or.inr ⟨(Option.some.inj heq).symm, fun i h1 h2 => ?_, by unfold MqttPacket.held; omega⟩⟩
        by_cases hi : i + 1 < m.fhLen
        · exact h.more i h1 hi
        · obtain rfl : i = m.fhLen - 1 := by omega
          exact ⟨last, hlast, hmore⟩
      · rw [if_neg hlong]
        rcases recv_cases net Nat.one_pos with ⟨got, net', hrecv, hstream, hsub, hcount, hfail⟩ |
          ⟨bs, net', hrecv, hpos, hle, hbs, hsub, hcount⟩
        · rw [hrecv]
          exact ⟨m, net', some got, rfl, h.stays hstream, onward_nothing hstream hsub hcount,
            fun h => absurd h (Option.some_ne_none _), fun _ heq =>
              Or.inl ⟨Option.some.inj heq ▸ hfail, Or.inl ⟨hpl, not_lt.mp hlong, fun _ => ⟨last, hlast, hmore⟩⟩⟩⟩
        · obtain ⟨buf, hstore, hread⟩ := h.header hbs (by omega) hpl (by omega) (fun _ => ⟨last, hlast, hmore⟩)
          rw [hrecv]
          dsimp only
          rw [hstore, Option.bind_some]
          obtain ⟨m', net'', stop, heq, hread', hon, hnone, hsome⟩ := ih hread (by dsimp only; omega)
            (by dsimp only; omega)
          exact ⟨m', net'', stop, heq, hread', (onward_header (by omega) hbs hsub hcount).trans hon, hnone,
            fun got hgot => (hsome got hgot).imp_left fun hfail => ⟨hfail.1.weaken hsub, hfail.2⟩⟩
    · rw [if_neg hmore]
      exact ⟨m, net, none, rfl, h, Onward.refl m net, fun _ => ⟨htwo, last, hlast, not_not.mp hmore⟩,
        fun _ heq => nomatch heq⟩

theorem recvPl_spec (turns : ℕ) (h : Reading s m net) (hends : HeaderEnds s m.fhLen remlen)
    (hfit : m.fhLen + remlen ≤ m.maxlen) (hturns : remlen - m.plLen < turns) :
    ∃ m' net' stop, recvPl remlen turns m net = some (m', net', stop) ∧ Reading s m' net' ∧ Onward m net m' net' ∧
      m'.fhLen = m.fhLen ∧ (stop = none → remlen ≤ m'.plLen) ∧
        ∀ got, stop = some got → Failing net net' got ∧ Unfinished s m' := by
  induction turns generalizing m net with
  | zero => exact absurd hturns (Nat.not_lt_zero _)
  | succ turns ih =>
    unfold recvPl
    by_cases hmore : m.plLen < remlen
    · rw [if_pos hmore]
      rcases recv_cases net (Nat.sub_pos_of_lt hmore) with ⟨got, net', hrecv, hstream, hsub, hcount, hfail⟩ |
        ⟨bs, net', hrecv, hpos, hle, hbs, hsub, hcount⟩
      · rw [hrecv]
        exact ⟨m, net', some got, rfl, h.stays hstream, onward_nothing hstream hsub hcount, rfl,
          fun h => absurd h (Option.some_ne_none _), fun _ heq =>
            ⟨Option.some.inj heq ▸ hfail, Or.inr ⟨remlen, hends, hmore, hfit⟩⟩⟩
      · obtain ⟨buf, hstore, hread⟩ := h.behind hbs hends hfit (by omega)
        rw [hrecv]
        dsimp only
        rw [hstore, Option.bind_some]
        obtain ⟨m', net'', stop, heq, hread', hon, hfh, hnone, hsome⟩ := ih hread hends hfit (by dsimp only; omega)
        have hstep : Onward m net { m with buffer := buf, plLen := m.plLen + bs.length } net' :=
          onward_bytes rfl (Nat.add_assoc m.fhLen m.plLen bs.length).symm hpos hbs hsub hcount
        exact ⟨m', net'', stop, heq, hread', hstep.trans hon, hfh, hnone,
          fun got hgot => (hsome got hgot).imp_left fun hfail => hfail.weaken hsub⟩
    · rw [if_neg hmore]
      exact ⟨m, net, none, rfl, h, Onward.refl m net, rfl, fun _ => not_lt.mp hmore, fun _ heq => nomatch heq⟩

end Loops

/-! ## A call, and calls until one does not time out -/

/-- What a result says about the stream `s`. -/
def Outcome (s : Bytes) (net : Net) (m : MqttPacket) (net' : Net) : Got → Prop
  | .bytes n => HeaderEnds s m.fhLen m.plLen ∧ n = m.held ∧
      ∃ b, s[0]? = some b ∧ m.fhByte1 = b ∧ m.msgType = msgTypeOf b
  | .timedOut => (net'.answers = [] ∨ net'.answers.length < net.answers.length) ∧ Unfinished s m
  | .network => .failed ∈ net.answers
  | .notDef => Endless s ∧ m.held = MAX_FH_LEN + 1
  | .pktLen => ∃ r, HeaderEnds s m.fhLen r ∧ m.maxlen < m.held + r ∧ m.plLen = 0

section Calls

variable {s : Bytes} {m : MqttPacket} {net net' : Net}

theorem Failing.outcome {got : Got} {m' : MqttPacket} (h : Failing net net' got) (hmiss : Unfinished s m') :
    Outcome s net m' net' got := by
  rcases h with ⟨rfl, hless⟩ | ⟨rfl, hfail⟩
  · exact ⟨hless, hmiss⟩
  · exact hfail

theorem Outcome.weaken {net'' : Net} {got : Got} {m' : MqttPacket} (h : Outcome s net' m' net'' got)
    (hsub : net'.answers <:+ net.answers) : Outcome s net m' net'' got := by
  have hlen := hsub.length_le
  cases got with
  | timedOut => exact ⟨h.1.imp_right fun h => by omega, h.2⟩
  | network => exact hsub.subset h
  | bytes n => exact h
  | notDef => exact h
  | pktLen => exact h

theorem recvRest_spec (h : Reading s m net) (htwo : 2 ≤ m.fhLen)
    (hlast : ∃ b, s[m.fhLen - 1]? = some b ∧ b &&& 0x80 = 0) :
    ∃ got m' net', recvRest m net = some (got, m', net') ∧ Reading s m' net' ∧ Onward m net m' net' ∧
      Outcome s net m' net' got := by
  have hheld : m.held = m.fhLen + m.plLen := rfl
  have hbuf := bufRdRemlen_header m.buffer htwo h.more hlast (fun j hj => h.getElem?_eq (by omega))
  obtain ⟨r, hr⟩ : ∃ r, r = remainingLength s (min (m.fhLen - 1) MAX_REMLEN_BYTES) := ⟨_, rfl⟩
  rw [← hr] at hbuf
  have hends : HeaderEnds s m.fhLen r := ⟨htwo, h.fhLen, h.more, hlast, hr⟩
  have hfh : m.fheaderBuf + 1 = 1 := by unfold MqttPacket.fheaderBuf; rw [h.offset]
  unfold recvRest
  rw [hfh, hbuf, Option.bind_some]
  by_cases hfit : m.maxlen < r + m.fhLen
  · rw [if_pos hfit]
    have hpl : m.plLen = 0 := by
      by_contra hne
      obtain ⟨r', hends', -, hfit'⟩ := h.payload hne
      obtain ⟨-, rfl⟩ := hends.unique hends'
      omega
    exact ⟨_, _, _, rfl, h, Onward.refl m net, r, hends, by omega, hpl⟩
  · rw [if_neg hfit]
    obtain ⟨m', net', stop, heq, hread, hon, hfhLen, hnone, hsome⟩ := recvPl_spec (r + 1) h hends (by omega)
      (by omega)
    rw [heq, Option.bind_some]
    cases stop with
    | some got => exact ⟨_, _, _, rfl, hread, hon, (hsome got rfl).1.outcome (hsome got rfl).2⟩
    | none =>
      have hends' : HeaderEnds s m'.fhLen r := hfhLen ▸ hends
      have hpl : m'.plLen = r := by
        have hle := hnone rfl
        by_cases h0 : m'.plLen = 0
        · omega
        · obtain ⟨r', hends'', hle', -⟩ := hread.payload h0
          obtain ⟨-, rfl⟩ := hends'.unique hends''
          omega
      have hheld' : m'.held = m'.fhLen + m'.plLen := rfl
      have htwo' := hends'.two
      have hwithin := hread.within
      obtain ⟨b, hb⟩ : ∃ b, s[0]? = some b := ⟨_, List.getElem?_eq_getElem (by omega)⟩
      have hfirst : m'.buffer[m'.fheaderBuf]? = some b := by
        unfold MqttPacket.fheaderBuf
        rw [hread.offset, hread.getElem?_eq (by omega), hb]
      dsimp only
      rw [hfirst, Option.map_some]
      refine ⟨_, _, _, rfl, ⟨hread.offset, hread.vhLen, hread.msgId, hread.size, hread.room, hread.within, hread.bytes,
        hread.left, hread.fhLen, hread.more, hread.payload⟩,
        ⟨hon.maxlen, hon.held, hon.stream, hon.answers, hon.counts⟩, ?_, ?_, b, hb, rfl, rfl⟩
      · exact hpl ▸ hends'
      · rw [← hpl]
        rfl

/-- **`mqp_recv`** stores inside the buffer, and goes on where the call before has stopped. -/
theorem mqpRecv_spec (h : Reading s m net) :
    ∃ got m' net', mqpRecv m net = some (got, m', net') ∧ Reading s m' net' ∧ Onward m net m' net' ∧
      Outcome s net m' net' got := by
  obtain ⟨m1, net1, stop1, heq1, hread1, hon1, hnone1, hsome1⟩ := recvFhStart_spec 3 h (by omega)
  unfold mqpRecv
  rw [heq1, Option.bind_some]
  cases stop1 with
  | some got => exact ⟨_, _, _, rfl, hread1, hon1, (hsome1 got rfl).1.outcome (hsome1 got rfl).2⟩
  | none =>
    have htwo := hnone1 rfl
    have hmax : MAX_FH_LEN = 5 := rfl
    obtain ⟨m2, net2, stop2, heq2, hread2, hon2, hnone2, hsome2⟩ := recvFhMore_spec 6 hread1 htwo (by omega)
    have hon := hon1.trans hon2
    dsimp only
    rw [heq2, Option.bind_some]
    cases stop2 with
    | some got =>
      refine ⟨_, _, _, rfl, hread2, hon, ?_⟩
      rcases hsome2 got rfl with ⟨hfail, hmiss⟩ | ⟨rfl, hend⟩
      · exact (hfail.weaken hon1.answers).outcome hmiss
      · exact hend
    | none =>
      obtain ⟨htwo', hlast⟩ := hnone2 rfl
      obtain ⟨got, m3, net3, heq3, hread3, hon3, hout⟩ := recvRest_spec hread2 htwo' hlast
      exact ⟨got, m3, net3, heq3, hread3, hon.trans hon3, hout.weaken hon.answers⟩

/-- Calls until one does not time out end, at the latest when the socket has nothing more to answer. -/
theorem receive_spec {calls : ℕ} (h : Reading s m net) (hcalls : net.answers.length < calls) :
    ∃ got m' net', receive calls m net = some (got, m', net') ∧ Reading s m' net' ∧ Onward m net m' net' ∧
      Outcome s net m' net' got ∧ (got = .timedOut → net'.answers = []) := by
  induction calls generalizing m net with
  | zero => exact absurd hcalls (Nat.not_lt_zero _)
  | succ calls ih =>
    obtain ⟨got, m', net', heq, hread, hon, hout⟩ := mqpRecv_spec h
    unfold receive
    rw [heq, Option.bind_some]
    by_cases hagain : got = .timedOut ∧ net'.answers ≠ []
    · obtain ⟨rfl, hne⟩ := hagain
      have hless : net'.answers.length < net.answers.length := hout.1.resolve_left hne
      obtain ⟨got, m'', net'', heq', hread', hon', hout', hdone⟩ := ih hread (by omega)
      rw [if_pos ⟨rfl, hne⟩]
      exact ⟨got, m'', net'', heq', hread', hon.trans hon', hout'.weaken hon.answers, hdone⟩
    · rw [if_neg hagain]
      refine ⟨got, m', net', rfl, hread, hon, hout, fun hgot => ?_⟩
      by_contra hne
      exact hagain ⟨hgot, hne⟩

end Calls

/-! ## What stands at the front of a stream -/

/-- What a receiver finds at the front of a stream, and how many bytes tell it.  A packet has a remaining length of four
bytes at most; where a fifth byte ends it, `mqp_recv` takes that one into the header too, and the number of the first
four for the length of what follows. -/
inductive Front (maxlen : ℕ) (s : Bytes) : Got → ℕ → Prop
  | packet {h r : ℕ} : HeaderEnds s h r → h ≤ MAX_FH_LEN → h + r ≤ maxlen → h + r ≤ s.length →
      Front maxlen s (.bytes (h + r)) (h + r)
  | long {h r : ℕ} : HeaderEnds s h r → h ≤ MAX_FH_LEN → maxlen < h + r → Front maxlen s .pktLen h
  | fifth {r : ℕ} : HeaderEnds s (MAX_FH_LEN + 1) r → MAX_FH_LEN + 1 + r ≤ maxlen → MAX_FH_LEN + 1 + r ≤ s.length →
      Front maxlen s (.bytes (MAX_FH_LEN + 1 + r)) (MAX_FH_LEN + 1 + r)
  | fifthLong {r : ℕ} : HeaderEnds s (MAX_FH_LEN + 1) r → maxlen < MAX_FH_LEN + 1 + r →
      Front maxlen s .pktLen (MAX_FH_LEN + 1)
  | endless : Endless s → Front maxlen s .notDef (MAX_FH_LEN + 1)

section Front

variable {s : Bytes} {m : MqttPacket} {net : Net} {got : Got} {maxlen needed : ℕ}

theorem HeaderEnds.front {h r : ℕ} (hends : HeaderEnds s h r) (hfit : h + r ≤ maxlen) (hall : h + r ≤ s.length) :
    Front maxlen s (.bytes (h + r)) (h + r) := by
  by_cases hfour : h ≤ MAX_FH_LEN
  · exact .packet hends hfour hfit hall
  · obtain rfl : h = MAX_FH_LEN + 1 := le_antisymm hends.six (by omega)
    exact .fifth hends hfit hall

theorem HeaderEnds.front_long {h r : ℕ} (hends : HeaderEnds s h r) (hlong : maxlen < h + r) :
    Front maxlen s .pktLen h := by
  by_cases hfour : h ≤ MAX_FH_LEN
  · exact .long hends hfour hlong
  · obtain rfl : h = MAX_FH_LEN + 1 := le_antisymm hends.six (by omega)
    exact .fifthLong hends hlong

/-- The header ends, or it does not. -/
theorem Front.header (h : Front maxlen s got needed) :
    (∃ n r, HeaderEnds s n r ∧ (needed = n + r ∧ needed ≤ s.length ∨ needed = n ∧ maxlen < n + r)) ∨
      Endless s ∧ needed = MAX_FH_LEN + 1 := by
  cases h with
  | packet hends _ hfit hall => exact Or.inl ⟨_, _, hends, Or.inl ⟨rfl, hall⟩⟩
  | long hends _ hlong => exact Or.inl ⟨_, _, hends, Or.inr ⟨rfl, hlong⟩⟩
  | fifth hends hfit hall => exact Or.inl ⟨_, _, hends, Or.inl ⟨rfl, hall⟩⟩
  | fifthLong hends hlong => exact Or.inl ⟨_, _, hends, Or.inr ⟨rfl, hlong⟩⟩
  | endless hend => exact Or.inr ⟨hend, rfl⟩

theorem Front.le_length (h : Front maxlen s got needed) : needed ≤ s.length := by
  rcases h.header with ⟨n, r, hends, ⟨-, hall⟩ | ⟨rfl, -⟩⟩ | ⟨hend, rfl⟩
  · exact hall
  · obtain ⟨b, hb, -⟩ := hends.last
    have hlt := (List.getElem?_eq_some_iff.mp hb).1
    omega
  · obtain ⟨b, hb, -⟩ := hend MAX_FH_LEN (by decide) (le_refl _)
    exact (List.getElem?_eq_some_iff.mp hb).1

/-- As long as bytes are missing nobody can tell what stands at the front. -/
theorem Unfinished.held_lt (hmiss : Unfinished s m) (hread : Reading s m net) (h : Front m.maxlen s got needed) :
    m.held < needed := by
  have hheld : m.held = m.fhLen + m.plLen := rfl
  rcases hmiss with ⟨hpl, hfh, hmore⟩ | ⟨r, hends, hless, hfit⟩
  · rcases h.header with ⟨n, r, hends, hneeded⟩ | ⟨-, rfl⟩
    · have htwo := hends.two
      have hbefore : m.fhLen < n := by
        by_contra hge
        by_cases heq : n = m.fhLen
        · exact not_more hends.last (heq ▸ hmore (by omega))
        · exact not_more hends.last (hread.more (n - 1) (by omega) (by omega))
      omega
    · omega
  · rcases h.header with ⟨n, r', hends', hneeded⟩ | ⟨hend, -⟩
    · obtain ⟨rfl, rfl⟩ := hends.unique hends'
      omega
    · exact absurd hend hends.not_endless

theorem Reading.held_le (h : Reading s m net) : m.held ≤ m.maxlen := by
  have hwithin := h.within
  by_cases h0 : m.held = 0
  · omega
  · have hlen : (s.take m.held).length = m.held := by
      rw [List.length_take]
      omega
    have hle := h.bytes.length_le (List.length_pos_iff.mp (by omega))
    rw [hlen, h.size] at hle
    omega

/-- **Receiving**: whatever comes, in whatever pieces and with whatever pauses, it stays inside the buffer, takes what
it has read from the stream and nothing else, and ends with what stands at the front of the stream, unless the
connection fails or brings too few bytes. -/
theorem receive_front {type : ℕ} {buf : Bytes} (hbuf : buf.length = maxlen) (hroom : MAX_FH_LEN < maxlen) (s : Bytes)
    (answers : List Answer) :
    ∃ got m net, receive (answers.length + 1) (mqpClientAlloc type 0 maxlen buf) ⟨s, answers⟩ = some (got, m, net) ∧
      m.held ≤ s.length ∧ m.held ≤ maxlen ∧ m.buffer.length = maxlen ∧ m.buffer.take m.held = s.take m.held ∧
      net.stream = s.drop m.held ∧
      (Front maxlen s got m.held ∨
        (got = .timedOut ∧ net.answers = [] ∧ ∀ got' needed, Front maxlen s got' needed →
          m.held < needed ∧ answers.countP Answer.brings < needed) ∨
        got = .network ∧ .failed ∈ answers) := by
  obtain ⟨got, m, net, heq, hread, hon, hout, hdone⟩ :=
    receive_spec (reading_alloc type s answers hbuf hroom) (Nat.lt_succ_self _)
  have hmax : m.maxlen = maxlen := hon.maxlen
  have hwithin := hread.within
  have hheld : m.held = m.fhLen + m.plLen := rfl
  have htaken : (s.take m.held).length = m.held := by
    rw [List.length_take]
    omega
  have hbytes := hread.bytes.take_drop
  rw [List.drop_zero, htaken] at hbytes
  refine ⟨got, m, net, heq, hwithin, hmax ▸ hread.held_le, hmax ▸ hread.size, hbytes, hread.left, ?_⟩
  cases got with
  | bytes n =>
    obtain ⟨hends, rfl, -⟩ := hout
    have hle := hread.held_le
    exact Or.inl (hends.front (by omega) (by omega))
  | timedOut =>
    obtain ⟨-, hmiss⟩ := hout
    have hnone := hdone rfl
    refine Or.inr (Or.inl ⟨rfl, hnone, fun got' needed hfront => ?_⟩)
    have hlt := hmiss.held_lt hread (hmax ▸ hfront)
    have hle := hfront.le_length
    have hcount := hon.counts (by
      rw [hread.left]
      refine List.length_pos_iff.mp ?_
      rw [List.length_drop]
      omega)
    have hzero : net.bringing = 0 := by unfold Net.bringing; rw [hnone, List.countP_nil]
    have hstart : (mqpClientAlloc type 0 maxlen buf).held = 0 := rfl
    have hall : (⟨s, answers⟩ : Net).bringing = answers.countP Answer.brings := rfl
    exact ⟨hlt, by omega⟩
  | network => exact Or.inr (Or.inr ⟨rfl, hout⟩)
  | notDef =>
    obtain ⟨hend, hheld⟩ := hout
    rw [hheld]
    exact Or.inl (.endless hend)
  | pktLen =>
    obtain ⟨r, hends, hlong, hpl⟩ := hout
    have hfh : m.held = m.fhLen := by omega
    rw [hfh]
    exact Or.inl (hends.front_long (by omega))

/-- A packet of four bytes with two pauses, in a buffer of eight. -/
theorem receive_front_four :
    ∃ got m net, receive 6 (mqpClientAlloc 0 0 8 (List.replicate 8 0))
        ⟨[0xD0, 0x02, 0x61, 0x62, 0x30], [.data 0, .timeout, .data 3, .timeout, .data 0]⟩ = some (got, m, net) ∧
      m.held ≤ 5 ∧ m.held ≤ 8 ∧ m.buffer.length = 8 ∧
      m.buffer.take m.held = [0xD0, 0x02, 0x61, 0x62, 0x30].take m.held ∧
      net.stream = [0xD0, 0x02, 0x61, 0x62, 0x30].drop m.held ∧
      (Front 8 [0xD0, 0x02, 0x61, 0x62, 0x30] got m.held ∨
        (got = .timedOut ∧ net.answers = [] ∧ ∀ got' needed, Front 8 [0xD0, 0x02, 0x61, 0x62, 0x30] got' needed →
          m.held < needed ∧ [Answer.data 0, .timeout, .data 3, .timeout, .data 0].countP Answer.brings < needed) ∨
        got = .network ∧ .failed ∈ [Answer.data 0, .timeout, .data 3, .timeout, .data 0]) :=
  receive_front List.length_replicate (by decide) _ _

end Front

end Thronix.Mqp
