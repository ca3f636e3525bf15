import Mathlib.Data.List.Basic
import SolidityFrontend.Text.Utf8

/-!
# Characters and their bytes

A byte string that is text is the encoding of its characters (`encode_of_decode`): the first byte of a
sequence and the ranges of those behind it leave one sequence for each code point. So two such byte
strings with the same characters are equal.
-/

namespace SolidityFrontend.Text.Utf8

/-- Bytes of which the first one lies in a range and the others continue a sequence. -/
def Continue (low high : UInt8) : List UInt8 → Prop
  | [] => True
  | b :: bs => (low ≤ b ∧ b ≤ high) ∧ ∀ c ∈ bs, 0x80 ≤ c ∧ c ≤ 0xBF

theorem continue_cons {low high b : UInt8} {bs : List UInt8} (hb : low ≤ b ∧ b ≤ high)
    (hbs : Continue 0x80 0xBF bs) : Continue low high (b :: bs) := by
  refine ⟨hb, ?_⟩
  cases bs with
  | nil => simp
  | cons c bs => exact List.forall_mem_cons.2 hbs

/-- The bytes that fit a sequence. -/
theorem fitting_full {owed : Nat} {low high : UInt8} {bs : List UInt8}
    (h : (fitting owed low high bs).1 = owed) :
    (bs.take owed).length = owed ∧ Continue low high (bs.take owed) := by
  induction owed generalizing low high bs with
  | zero => exact ⟨rfl, trivial⟩
  | succ owed ih =>
    cases bs with
    | nil => simp [fitting] at h
    | cons b bs =>
      rw [fitting] at h
      split at h
      case isTrue hb =>
        obtain ⟨hlength, hcontinue⟩ := ih (Nat.succ.inj h)
        exact ⟨congrArg Nat.succ hlength, continue_cons hb hcontinue⟩
      case isFalse => simp at h

/-- A character is its lead and the bytes behind it. -/
theorem piece_char {b : UInt8} {bs : List UInt8} {c : Char} {n : Nat}
    (h : piece b bs = (.char c, n)) : ∃ lead, Lead.ofByte? b = some lead ∧
      c = Char.ofNat (codePoint b (bs.take n)) ∧ (bs.take n).length = lead.following ∧
        Continue lead.low lead.high (bs.take n) := by
  rw [piece] at h
  split at h
  · simp at h
  next lead hlead =>
    split at h
    next m ranOut hfitting =>
    split at h
    case isTrue hm =>
      obtain ⟨hc, rfl⟩ := Prod.mk.inj h
      subst hm
      have hfull := fitting_full (by rw [hfitting] : (fitting _ _ _ bs).1 = lead.following)
      exact ⟨lead, hlead, (Piece.char.inj hc).symm, hfull⟩
    case isFalse =>
      split at h <;> simp at h

theorem toNat_ofNat_of_valid {v : Nat} (h : v < 0xD800 ∨ 0xDFFF < v ∧ v < 0x110000) :
    (Char.ofNat v).val.toNat = v := by
  have hvalid : v.isValidChar := h
  rw [Char.ofNat, dif_pos hvalid]
  rfl

theorem ofNat_eq {b : UInt8} {v : Nat} (h : v = b.toNat) : UInt8.ofNat v = b := by
  rw [h, UInt8.ofNat_toNat]

section

variable {b c d e : UInt8}

theorem encodeChar_one (hb : b.toNat < 0x80) :
    encodeChar (Char.ofNat (codePoint b [])) = [b] := by
  have hv : codePoint b [] = b.toNat := rfl
  rw [encodeChar, String.utf8EncodeChar, hv, toNat_ofNat_of_valid (by omega)]
  rw [if_pos (by omega), ofNat_eq rfl]

theorem encodeChar_two (hb : 0xC2 ≤ b.toNat ∧ b.toNat ≤ 0xDF)
    (hc : 0x80 ≤ c.toNat ∧ c.toNat ≤ 0xBF) :
    encodeChar (Char.ofNat (codePoint b [c])) = [b, c] := by
  have hv : codePoint b [c] = b.toNat % 0x20 * 0x40 + c.toNat % 0x40 := rfl
  rw [encodeChar, String.utf8EncodeChar, hv, toNat_ofNat_of_valid (by omega)]
  rw [if_neg (by omega), if_pos (by omega), ofNat_eq (b := b) (by omega),
    ofNat_eq (b := c) (by omega)]

theorem encodeChar_three {v : Nat}
    (hv : v = (b.toNat % 0x10 * 0x40 + c.toNat % 0x40) * 0x40 + d.toNat % 0x40)
    (hb : 0xE0 ≤ b.toNat ∧ b.toNat ≤ 0xEF) (hc : 0x80 ≤ c.toNat ∧ c.toNat ≤ 0xBF)
    (hd : 0x80 ≤ d.toNat ∧ d.toNat ≤ 0xBF) (hlow : 0x800 ≤ v)
    (hvalid : v < 0xD800 ∨ 0xDFFF < v) :
    encodeChar (Char.ofNat (codePoint b [c, d])) = [b, c, d] := by
  have hcode : codePoint b [c, d] = v := hv.symm
  rw [encodeChar, String.utf8EncodeChar, hcode, toNat_ofNat_of_valid (by omega)]
  rw [if_neg (by omega), if_neg (by omega), if_pos (by omega), ofNat_eq (b := b) (by omega),
    ofNat_eq (b := c) (by omega), ofNat_eq (b := d) (by omega)]

theorem encodeChar_four {v : Nat}
    (hv : v = ((b.toNat % 0x08 * 0x40 + c.toNat % 0x40) * 0x40 + d.toNat % 0x40) * 0x40
      + e.toNat % 0x40)
    (hb : 0xF0 ≤ b.toNat ∧ b.toNat ≤ 0xF4) (hc : 0x80 ≤ c.toNat ∧ c.toNat ≤ 0xBF)
    (hd : 0x80 ≤ d.toNat ∧ d.toNat ≤ 0xBF) (he : 0x80 ≤ e.toNat ∧ e.toNat ≤ 0xBF)
    (hlow : 0x10000 ≤ v) (hvalid : v < 0x110000) :
    encodeChar (Char.ofNat (codePoint b [c, d, e])) = [b, c, d, e] := by
  have hcode : codePoint b [c, d, e] = v := hv.symm
  rw [encodeChar, String.utf8EncodeChar, hcode, toNat_ofNat_of_valid (by omega)]
  rw [if_neg (by omega), if_neg (by omega), if_neg (by omega), ofNat_eq (b := b) (by omega),
    ofNat_eq (b := c) (by omega), ofNat_eq (b := d) (by omega), ofNat_eq (b := e) (by omega)]

end

/-- How many bytes follow a first byte, and between which bounds the next one lies. -/
theorem ofByte?_bounds {b : UInt8} {lead : Lead} (h : Lead.ofByte? b = some lead) :
    lead.following = 0 ∧ b.toNat < 0x80
      ∨ lead.following = 1 ∧ 0xC2 ≤ b.toNat ∧ b.toNat ≤ 0xDF
        ∧ lead.low.toNat = 0x80 ∧ lead.high.toNat = 0xBF
      ∨ lead.following = 2 ∧ 0xE0 ≤ b.toNat ∧ b.toNat ≤ 0xEF ∧ 0x80 ≤ lead.low.toNat
        ∧ lead.high.toNat ≤ 0xBF ∧ (b.toNat = 0xE0 → 0xA0 ≤ lead.low.toNat)
        ∧ (b.toNat = 0xED → lead.high.toNat ≤ 0x9F)
      ∨ lead.following = 3 ∧ 0xF0 ≤ b.toNat ∧ b.toNat ≤ 0xF4 ∧ 0x80 ≤ lead.low.toNat
        ∧ lead.high.toNat ≤ 0xBF ∧ (b.toNat = 0xF0 → 0x90 ≤ lead.low.toNat)
        ∧ (b.toNat = 0xF4 → lead.high.toNat ≤ 0x8F) := by
  unfold Lead.ofByte? at h
  simp only [UInt8.lt_iff_toNat_lt, UInt8.le_iff_toNat_le, ← UInt8.toNat_inj] at h
  repeat' split at h
  all_goals first | (obtain rfl := Option.some.inj h; simp_all; try omega) | cases h

/-- The bytes of a character are those from which it is read. -/
theorem encodeChar_of_piece {b : UInt8} {bs : List UInt8} {c : Char} {n : Nat}
    (h : piece b bs = (.char c, n)) : encodeChar c = b :: bs.take n := by
  obtain ⟨lead, hlead, rfl, hlength, hcontinue⟩ := piece_char h
  generalize bs.take n = ds at hlength hcontinue
  clear h
  rcases ofByte?_bounds hlead with h | h | h | h <;> rw [h.1] at hlength
  · obtain rfl := List.length_eq_zero_iff.1 hlength
    exact encodeChar_one h.2
  · obtain ⟨c, rfl⟩ := List.length_eq_one_iff.1 hlength
    simp only [Continue, UInt8.le_iff_toNat_le] at hcontinue
    exact encodeChar_two (by omega) (by omega)
  · obtain ⟨c, d, rfl⟩ := List.length_eq_two.1 hlength
    simp only [Continue, UInt8.le_iff_toNat_le, List.forall_mem_singleton] at hcontinue
    have hd : 0x80 ≤ d.toNat ∧ d.toNat ≤ 0xBF := hcontinue.2
    exact encodeChar_three rfl (by omega) (by omega) hd (by omega) (by omega)
  · obtain ⟨c, d, e, rfl⟩ := List.length_eq_three.1 hlength
    simp only [Continue, UInt8.le_iff_toNat_le, List.forall_mem_cons] at hcontinue
    have hd : 0x80 ≤ d.toNat ∧ d.toNat ≤ 0xBF := hcontinue.2.1
    have he : 0x80 ≤ e.toNat ∧ e.toNat ≤ 0xBF := hcontinue.2.2.1
    exact encodeChar_four rfl (by omega) (by omega) hd he (by omega) (by omega)

/-- Bytes that belong to a piece already are no pieces of their own. -/
theorem piecesFrom_eq_drop (skip : Nat) (bs : List UInt8) :
    piecesFrom skip bs = piecesFrom 0 (bs.drop skip) := by
  induction skip generalizing bs with
  | zero => rfl
  | succ skip ih =>
    cases bs with
    | nil => simp [piecesFrom]
    | cons b bs => rw [piecesFrom, ih, List.drop_succ_cons]

theorem encode_of_collect {index : Nat} {bs : List UInt8} {cs : List Char}
    (h : collect index (piecesFrom 0 bs) = .ok cs) : encode cs = bs := by
  induction hlength : bs.length using Nat.strongRecOn generalizing index bs cs with
  | ind length ih =>
    cases bs with
    | nil =>
      rw [piecesFrom, collect] at h
      obtain rfl := Except.ok.inj h
      rfl
    | cons b bs =>
      rw [piecesFrom] at h
      rcases hpiece : piece b bs with ⟨_ | _ | _, n⟩ <;> rw [hpiece] at h
      case char c =>
        simp only [collect] at h
        rw [piecesFrom_eq_drop] at h
        rcases hrest : collect (index + (n + 1)) (piecesFrom 0 (bs.drop n)) with e | ds <;>
          rw [hrest] at h
        · cases h
        · obtain rfl := Except.ok.inj h
          have hshort : (bs.drop n).length < length := by
            rw [← hlength, List.length_drop, List.length_cons]; omega
          have hds := ih _ hshort hrest rfl
          rw [encode, List.flatMap_cons, encodeChar_of_piece hpiece]
          exact congrArg (b :: ·) ((congrArg _ hds).trans (List.take_append_drop n bs))
      all_goals simp [collect] at h

/-- Text is written by the bytes from which it is read. -/
theorem encode_of_decode {bs : List UInt8} {cs : List Char} (h : decode bs = .ok cs) :
    encode cs = bs := encode_of_collect h

theorem decodeLossy_of_decode {bs : List UInt8} {cs : List Char} (h : decode bs = .ok cs) :
    decodeLossy bs = cs := by
  rw [decode] at h
  rw [decodeLossy]
  generalize pieces bs = ps, 0 = index at h
  induction ps generalizing cs index with
  | nil => exact Except.ok.inj h
  | cons p ps ih =>
    rcases p with ⟨_ | _ | _, n⟩ <;> rw [collect] at h
    · rcases hrest : collect (index + n) ps with e | ds <;> rw [hrest] at h
      · cases h
      · obtain rfl := Except.ok.inj h
        rw [List.map_cons, ih _ hrest]
    · cases h
    · cases h

/-- Two byte strings that are text are equal if their characters are. -/
theorem eq_of_decodeLossy_eq {bs bs' : List UInt8} {cs cs' : List Char} (h : decode bs = .ok cs)
    (h' : decode bs' = .ok cs') (heq : decodeLossy bs = decodeLossy bs') : bs = bs' := by
  rw [decodeLossy_of_decode h, decodeLossy_of_decode h'] at heq
  rw [← encode_of_decode h, ← encode_of_decode h', heq]

end SolidityFrontend.Text.Utf8
