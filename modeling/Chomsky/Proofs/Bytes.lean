import Chomsky.Text.Bytes
import Chomsky.Proofs.Lines

/-!
# The lines of bytes

No byte of a character other than the line feed is a line feed.  So a text and its bytes are cut at
the same places, and bytes are decoded line by line.

Principal results: `decode?_eq_some` — bytes spell at most one text, and that text has these bytes;
`eq_feed_of_mem_utf8EncodeChar` — what has a line feed in its bytes; `decode?_append_feed` — a line
is decoded as it is without its end; `cutAfter_encode` — the lines of a text in bytes.
-/

namespace Chomsky.Text

/-- The byte of a line feed. -/
abbrev feedByte : UInt8 := 10

theorem encode_eq_flatMap (t : Text) : encode t = t.flatMap String.utf8EncodeChar := by
  simp [encode, List.utf8Encode]

theorem encode_append (s t : Text) : encode (s ++ t) = encode s ++ encode t := by
  simp only [encode_eq_flatMap, List.flatMap_append]

theorem encode_feed : encode ['\n'] = [feedByte] := by
  rw [encode_eq_flatMap]
  rfl

/-- **Bytes spell the text that has these bytes.** -/
theorem decode?_eq_some {bytes : Bytes} {t : Text} : decode? bytes = some t ↔ encode t = bytes := by
  constructor
  · intro h
    unfold decode? at h
    obtain ⟨cs, hcs, rfl⟩ := Option.map_eq_some_iff.1 h
    have hsome : bytes.toByteArray.utf8Decode?.isSome = true := by rw [hcs]; rfl
    have hencode := ByteArray.utf8Encode_get_utf8Decode? (h := hsome)
    simp only [hcs, Option.get_some] at hencode
    simp [encode, hencode]
  · rintro rfl
    exact decode?_encode t

/-- **Only a line feed has the byte of a line feed**: beyond ASCII all bytes of a character are 128
or more. -/
theorem eq_feed_of_mem_utf8EncodeChar {c : Char} (h : feedByte ∈ String.utf8EncodeChar c) :
    c = '\n' := by
  have hbyte : ∀ n, feedByte = UInt8.ofNat n → n % 256 = 10 := fun n hn =>
    (UInt8.toNat_ofNat'.symm.trans (congrArg UInt8.toNat hn).symm : n % 2 ^ 8 = feedByte.toNat)
  simp only [String.utf8EncodeChar] at h
  split_ifs at h with hascii htwo hthree
  · have hten := hbyte _ (List.mem_singleton.1 h)
    refine Char.toNat_inj.1 (?_ : c.val.toNat = 10)
    omega
  all_goals simp only [List.mem_cons, List.not_mem_nil, or_false] at h
  · rcases h with h | h <;>
      · have := hbyte _ h
        omega
  · rcases h with h | h | h <;>
      · have := hbyte _ h
        omega
  · rcases h with h | h | h | h <;>
      · have := hbyte _ h
        omega

theorem ne_feedByte_of_mem_encode {t : Text} (ht : ∀ c ∈ t, (c == '\n') = false) :
    ∀ b ∈ encode t, (b == feedByte) = false := by
  intro b hb
  rw [beq_eq_false_iff_ne]
  rintro rfl
  rw [encode_eq_flatMap, List.mem_flatMap] at hb
  obtain ⟨c, hc, hfeed⟩ := hb
  obtain rfl := eq_feed_of_mem_utf8EncodeChar hfeed
  simpa using ht _ hc

/-- Bytes without a line feed spell no line feed. -/
theorem ne_feed_of_decode? {bytes : Bytes} {t : Text} (h : decode? bytes = some t)
    (hbytes : ∀ b ∈ bytes, (b == feedByte) = false) : ∀ c ∈ t, (c == '\n') = false := by
  obtain rfl := decode?_eq_some.1 h
  intro c hc
  rw [beq_eq_false_iff_ne]
  rintro rfl
  have hb : feedByte ∈ encode t := by
    rw [encode_eq_flatMap, List.mem_flatMap]
    exact ⟨'\n', hc, by decide⟩
  simpa using hbytes _ hb

/-- **A line is decoded as it is without its end.** -/
theorem decode?_append_feed (bytes : Bytes) :
    decode? (bytes ++ [feedByte]) = (decode? bytes).map (· ++ ['\n']) := by
  refine Option.ext fun t => ?_
  rw [decode?_eq_some, Option.map_eq_some_iff]
  simp only [decode?_eq_some]
  constructor
  · intro h
    rcases List.eq_nil_or_concat' t with rfl | ⟨s, c, rfl⟩
    · simp [encode_eq_flatMap] at h
    have hlast : feedByte ∈ String.utf8EncodeChar c := by
      obtain ⟨front, b, hb⟩ := (List.eq_nil_or_concat' (String.utf8EncodeChar c)).resolve_left
        String.utf8EncodeChar_ne_nil
      rw [encode_append, encode_eq_flatMap [c], List.flatMap_singleton, hb, ← List.append_assoc]
        at h
      rw [hb, (List.append_singleton_inj.1 h).2]
      exact List.mem_append_right _ (List.mem_singleton.2 rfl)
    obtain rfl := eq_feed_of_mem_utf8EncodeChar hlast
    rw [encode_append, encode_feed] at h
    exact ⟨s, List.append_cancel_right h, rfl⟩
  · rintro ⟨s, rfl, rfl⟩
    rw [encode_append, encode_feed]

/-- **A text and its bytes are cut at the same places.** -/
theorem cutAfter_encode (t : Text) :
    cutAfter (· == feedByte) (encode t) = (cutAfter (· == '\n') t).map encode := by
  induction t using cut_induction (p := (· == '\n')) with
  | whole t ht =>
    cases t with
    | nil => rfl
    | cons c t =>
      have hne : encode (c :: t) ≠ [] := fun h => by
        simp [encode_eq_flatMap] at h
      rw [cutAfter_of_forall ht (List.cons_ne_nil _ _),
        cutAfter_of_forall (ne_feedByte_of_mem_encode ht) hne, List.map_singleton]
  | cut t c rest ht hc ih =>
    obtain rfl : c = '\n' := beq_iff_eq.1 hc
    have hencode : encode (t ++ '\n' :: rest) = encode t ++ feedByte :: encode rest := by
      rw [← List.singleton_append, encode_append, encode_append, encode_feed]
      rfl
    rw [hencode, cutAfter_append_cons (ne_feedByte_of_mem_encode ht) (beq_self_eq_true _), ih,
      cutAfter_append_cons ht hc, List.map_cons, encode_append, encode_feed]

end Chomsky.Text
