import Mathlib.Data.List.DropRight
import SvelteSyntax.Proofs.Text.Scan

namespace SvelteSyntax.Text

def bytesOf (c : Char) : List Char := (String.utf8EncodeChar c).map Char.ofUInt8

/-- The UTF-8 bytes of a text. -/
def encoded (cs : List Char) : List Char := cs.flatMap bytesOf

def isAscii (c : Char) : Bool := c.toNat < 128

variable {c d : Char} {cs pre needle : List Char} {b a : Option Char} {p : Char → Bool}

theorem ne_of_isAscii (hc : isAscii c = false) (hd : isAscii d) : c ≠ d := by
  rintro rfl
  simp [hd] at hc

theorem contains_eq_false {marks : List Char} (h : marks.all isAscii) (hc : isAscii c = false) :
    marks.contains c = false := by
  by_contra hmem
  exact ne_of_isAscii hc (List.all_eq_true.mp h c (by simpa using hmem)) rfl

@[simp] theorem encoded_nil : encoded [] = [] := rfl

@[simp] theorem encoded_cons (c : Char) (cs : List Char) :
    encoded (c :: cs) = bytesOf c ++ encoded cs := rfl

@[simp] theorem encoded_append (xs ys : List Char) :
    encoded (xs ++ ys) = encoded xs ++ encoded ys := List.flatMap_append

@[simp] theorem length_bytesOf (c : Char) : (bytesOf c).length = c.utf8Size := by
  rw [bytesOf, List.length_map, String.length_utf8EncodeChar]

@[simp] theorem length_encoded (cs : List Char) : (encoded cs).length = byteLength cs := by
  induction cs with
  | nil => rfl
  | cons c cs ih => simp [ih]

theorem byteLength_eq_zero : byteLength cs = 0 ↔ cs = [] := by
  cases cs with
  | nil => simp
  | cons c cs =>
    have := c.utf8Size_pos
    simp only [byteLength_cons, reduceCtorEq, iff_false]
    omega

theorem encoded_eq_nil : encoded cs = [] ↔ cs = [] := by
  rw [← List.length_eq_zero_iff, length_encoded, byteLength_eq_zero]

theorem bytesOf_ne_nil (c : Char) : bytesOf c ≠ [] := by
  apply List.ne_nil_of_length_pos
  simpa using c.utf8Size_pos

theorem val_ofUInt8 (b : UInt8) : (Char.ofUInt8 b).val = b.toUInt32 := rfl

theorem isAscii_ofUInt8 (b : UInt8) : isAscii (.ofUInt8 b) = decide (b.toNat < 128) := by
  simp [isAscii, val_ofUInt8, ← Char.toNat_val]

theorem bytesOf_of_isAscii (h : isAscii c) : bytesOf c = [c] := by
  have hlt : c.val.toNat < 128 := by simpa [isAscii] using h
  have hle : c.val.toNat ≤ 127 := by omega
  have hbyte : Char.ofUInt8 (.ofNat c.val.toNat) = c := by
    apply Char.ext
    apply UInt32.toNat_inj.mp
    simp only [val_ofUInt8, UInt8.toNat_toUInt32, UInt8.toNat_ofNat']
    omega
  simp only [bytesOf, String.utf8EncodeChar, hle, ↓reduceIte, List.map_cons, List.map_nil, hbyte]

theorem isAscii_of_mem_bytesOf {b : Char} (hc : isAscii c = false) (hb : b ∈ bytesOf c) :
    isAscii b = false := by
  have hgt : ¬c.val.toNat ≤ 127 := by
    have : ¬c.val.toNat < 128 := by simpa [isAscii] using hc
    omega
  obtain ⟨byte, hmem, rfl⟩ := List.mem_map.mp hb
  have hbyte : 128 ≤ byte.toNat := by
    simp only [String.utf8EncodeChar, hgt, ↓reduceIte] at hmem
    split at hmem
    case isTrue =>
      simp only [List.mem_cons, List.not_mem_nil, or_false] at hmem
      rcases hmem with rfl | rfl <;> simp <;> omega
    split at hmem
    case isTrue =>
      simp only [List.mem_cons, List.not_mem_nil, or_false] at hmem
      rcases hmem with rfl | rfl | rfl <;> simp <;> omega
    case isFalse =>
      simp only [List.mem_cons, List.not_mem_nil, or_false] at hmem
      rcases hmem with rfl | rfl | rfl | rfl <;> simp <;> omega
  simpa [isAscii_ofUInt8] using hbyte

theorem encoded_of_isAscii (h : ∀ c ∈ cs, isAscii c) : encoded cs = cs := by
  induction cs with
  | nil => rfl
  | cons c cs ih =>
    rw [encoded_cons, bytesOf_of_isAscii (h c (by simp)), ih fun d hd => h d (by simp [hd])]
    rfl

theorem exists_bytesOf (h : isAscii c = false) :
    ∃ b bs, bytesOf c = b :: bs ∧ isAscii b = false ∧ ∀ d ∈ bs, isAscii d = false := by
  obtain ⟨b, bs, hbytes⟩ := List.exists_cons_of_ne_nil (bytesOf_ne_nil c)
  refine ⟨b, bs, hbytes, ?_, fun d hd => ?_⟩
  all_goals exact isAscii_of_mem_bytesOf h (by simp [*])

/-- The same, or two that are not ASCII. -/
def AsciiEq (a b : Option Char) : Prop :=
  a = b ∨ ∃ c d, a = some c ∧ b = some d ∧ isAscii c = false ∧ isAscii d = false

namespace AsciiEq

variable {a b : Option Char}

theorem eq_some_iff (h : AsciiEq a b) (hd : isAscii d) : b = some d ↔ a = some d := by
  obtain rfl | ⟨c, c', rfl, rfl, hc, hc'⟩ := h
  · rfl
  · simp [ne_of_isAscii hc hd, ne_of_isAscii hc' hd]

theorem or {a' b'} (h : AsciiEq a b) (h' : AsciiEq a' b') :
    AsciiEq (a.or a') (b.or b') := by
  obtain rfl | ⟨c, c', rfl, rfl, hc, hc'⟩ := h
  · cases a with
    | none => simpa using h'
    | some c => exact .inl rfl
  · exact .inr ⟨c, c', rfl, rfl, hc, hc'⟩

end AsciiEq

/-- Tells nothing but ASCII characters apart. -/
def Uniform (p : Char → Bool) : Prop :=
  ∀ c d, isAscii c = false → isAscii d = false → p c = p d

namespace Uniform

variable {p q : Char → Bool}

theorem contains {marks : List Char} (h : marks.all isAscii) : Uniform marks.contains :=
  fun _ _ hc hd => (contains_eq_false h hc).trans (contains_eq_false h hd).symm

theorem and (hp : Uniform p) (hq : Uniform q) : Uniform fun c => p c && q c :=
  fun c d hc hd => congrArg₂ _ (hp c d hc hd) (hq c d hc hd)

theorem or (hp : Uniform p) (hq : Uniform q) : Uniform fun c => p c || q c :=
  fun c d hc hd => congrArg₂ _ (hp c d hc hd) (hq c d hc hd)

theorem not (hp : Uniform p) : Uniform fun c => !p c :=
  fun c d hc hd => congrArg _ (hp c d hc hd)

theorem beq (hd : isAscii d) : Uniform (· == d) := by
  have hout (c : Char) (hc : isAscii c = false) : (c == d) = false :=
    beq_eq_false_iff_ne.mpr (ne_of_isAscii hc hd)
  exact fun c c' hc hc' => (hout c hc).trans (hout c' hc').symm

theorem bne (hd : isAscii d) : Uniform (· != d) := (beq hd).not

theorem range {first last : Char} (hlast : isAscii last) : Uniform fun c => first ≤ c && c ≤ last := by
  have hout (c : Char) (hc : isAscii c = false) : (decide (first ≤ c) && decide (c ≤ last)) = false := by
    simp only [isAscii, decide_eq_false_iff_not, Nat.not_lt] at hc
    simp only [isAscii, decide_eq_true_eq] at hlast
    simp only [Bool.and_eq_false_imp, decide_eq_true_eq, decide_eq_false_iff_not, Char.le_def,
      UInt32.le_iff_toNat_le, Char.toNat_val]
    omega
  exact fun c d hc hd => (hout c hc).trans (hout d hd).symm

theorem isAsciiUpper : Uniform isAsciiUpper := range rfl

theorem isAsciiLetter : Uniform isAsciiLetter := .or (range rfl) (range rfl)

theorem isAsciiAlphanumeric : Uniform isAsciiAlphanumeric := .or isAsciiLetter (range rfl)

theorem isMarkupBlank : Uniform isMarkupBlank := by
  have hblank (d : Char) (hd : isAscii d) : Uniform (· == d) := beq hd
  exact ((((hblank ' ' rfl).or (hblank '\t' rfl)).or (hblank '\n' rfl)).or
    (hblank '\x0c' rfl)).or (hblank '\r' rfl)

theorem any_eq (hp : Uniform p) (h : AsciiEq a b) : b.any p = a.any p := by
  obtain rfl | ⟨c, d, rfl, rfl, hc, hd⟩ := h
  · rfl
  · exact hp d c hd hc

theorem all_eq (hp : Uniform p) (h : AsciiEq a b) : b.all p = a.all p := by
  obtain rfl | ⟨c, d, rfl, rfl, hc, hd⟩ := h
  · rfl
  · exact hp d c hd hc

theorem eq_of_mem_bytesOf (hp : Uniform p) {b : Char} (hb : b ∈ bytesOf c) : p b = p c := by
  cases hc : isAscii c with
  | true =>
    rw [bytesOf_of_isAscii hc, List.mem_singleton] at hb
    rw [hb]
  | false => exact hp b c (isAscii_of_mem_bytesOf hc hb) hc

end Uniform

theorem head?_encoded (cs : List Char) : AsciiEq cs.head? (encoded cs).head? := by
  cases cs with
  | nil => exact .inl rfl
  | cons c cs =>
    cases hc : isAscii c with
    | true =>
      rw [encoded_cons, bytesOf_of_isAscii hc]
      exact .inl rfl
    | false =>
      obtain ⟨b, bs, hbytes, hb, -⟩ := exists_bytesOf hc
      rw [encoded_cons, hbytes]
      exact .inr ⟨c, b, rfl, rfl, hc, hb⟩

theorem getLast?_encoded (cs : List Char) : AsciiEq cs.getLast? (encoded cs).getLast? := by
  rcases List.eq_nil_or_concat cs with rfl | ⟨cs, c, rfl⟩
  · exact .inl rfl
  · have hne := bytesOf_ne_nil c
    have hlast : (encoded (cs ++ [c])).getLast? = (bytesOf c).getLast? := by
      simp [List.getLast?_append, List.getLast?_eq_some_getLast hne]
    rw [List.concat_eq_append, hlast, List.getLast?_concat]
    cases hc : isAscii c with
    | true =>
      rw [bytesOf_of_isAscii hc]
      exact .inl rfl
    | false =>
      refine .inr ⟨c, _, rfl, List.getLast?_eq_some_getLast hne, hc, ?_⟩
      exact isAscii_of_mem_bytesOf hc (List.getLast_mem hne)

theorem takeWhile_encoded (hp : Uniform p) (cs : List Char) :
    (encoded cs).takeWhile p = encoded (cs.takeWhile p) := by
  induction cs with
  | nil => rfl
  | cons c cs ih =>
    cases hc : isAscii c with
    | true =>
      rw [encoded_cons, bytesOf_of_isAscii hc, List.singleton_append, List.takeWhile_cons,
        List.takeWhile_cons, ih]
      cases p c with
      | true => simp [bytesOf_of_isAscii hc]
      | false => rfl
    | false =>
      have hbytes (b : Char) (hb : b ∈ bytesOf c) : p b = p c :=
        hp b c (isAscii_of_mem_bytesOf hc hb) hc
      cases hpc : p c with
      | true =>
        rw [encoded_cons, List.takeWhile_append_of_pos fun b hb => (hbytes b hb).trans hpc, ih,
          List.takeWhile_cons_of_pos hpc, encoded_cons]
      | false =>
        obtain ⟨b, bs, heq, -⟩ := exists_bytesOf hc
        rw [encoded_cons, heq, List.cons_append, List.takeWhile_cons_of_neg,
          List.takeWhile_cons_of_neg]
        · rfl
        · simp [hpc]
        · simp [hbytes b (by simp [heq]), hpc]

theorem dropWhile_encoded (hp : Uniform p) (cs : List Char) :
    (encoded cs).dropWhile p = encoded (cs.dropWhile p) := by
  have hsplit := congrArg encoded (List.takeWhile_append_dropWhile (p := p) (l := cs))
  rw [encoded_append, ← takeWhile_encoded hp] at hsplit
  exact List.append_cancel_left (List.takeWhile_append_dropWhile.trans hsplit.symm)

theorem rdropWhile_encoded (hp : Uniform p) (cs : List Char) :
    (encoded cs).rdropWhile p = encoded (cs.rdropWhile p) := by
  induction cs using List.reverseRecOn with
  | nil => rfl
  | append_singleton cs c ih =>
    rw [encoded_append, show encoded [c] = bytesOf c from List.append_nil _]
    cases hc : p c with
    | true =>
      rw [List.rdropWhile_concat_pos _ _ _ hc, ← ih, List.rdropWhile, List.reverse_append,
        List.dropWhile_append_of_pos, List.rdropWhile]
      intro b hb
      rw [hp.eq_of_mem_bytesOf (List.mem_reverse.mp hb), hc]
    | false =>
      obtain ⟨bs, b, hbytes⟩ := List.eq_nil_or_concat (bytesOf c) |>.resolve_left (bytesOf_ne_nil c)
      have hb : p b = p c := hp.eq_of_mem_bytesOf (by simp [hbytes])
      rw [List.rdropWhile_concat_neg _ _ _ (by simp [hc]), hbytes, List.concat_eq_append,
        ← List.append_assoc, List.rdropWhile_concat_neg _ _ _ (by simp [hb, hc]), encoded_append,
        List.append_assoc, ← List.concat_eq_append, ← hbytes, encoded_cons, encoded_nil, List.append_nil]

theorem trim_encoded (hp : Uniform p) (cs : List Char) : trim p (encoded cs) = encoded (trim p cs) := by
  have hdrop := rdropWhile_encoded hp (cs.dropWhile p)
  rw [← dropWhile_encoded hp] at hdrop
  exact hdrop

theorem startsWith_encoded (hpre : pre.all isAscii) (cs : List Char) :
    startsWith pre (encoded cs) = startsWith pre cs := by
  induction pre generalizing cs with
  | nil => simp [startsWith]
  | cons p pre ih =>
    obtain ⟨hp, hpre⟩ : isAscii p ∧ pre.all isAscii := by simpa using hpre
    cases cs with
    | nil => rfl
    | cons c cs =>
      cases hc : isAscii c with
      | true =>
        rw [encoded_cons, bytesOf_of_isAscii hc, List.singleton_append, startsWith, startsWith,
          ih hpre]
      | false =>
        obtain ⟨b, bs, heq, hb, -⟩ := exists_bytesOf hc
        have hne (d : Char) (hd : isAscii d = false) : (p == d) = false :=
          beq_eq_false_iff_ne.mpr (ne_of_isAscii hd hp).symm
        rw [encoded_cons, heq, List.cons_append, startsWith, startsWith, hne b hb, hne c hc,
          Bool.false_and, Bool.false_and]

theorem startsWith_cons_of_not_isAscii (hpre : pre.all isAscii) (hne : pre ≠ []) (hc : isAscii c = false)
    (cs : List Char) :
    startsWith pre (c :: cs) = false := by
  obtain ⟨p, ps, rfl⟩ := List.exists_cons_of_ne_nil hne
  have hp : isAscii p := by simp_all
  simp [startsWith, (ne_of_isAscii hc hp).symm]

theorem splitAt?_append_of_not_isAscii {bs} (hneedle : needle.all isAscii) (hne : needle ≠ [])
    (hbs : ∀ b ∈ bs, isAscii b = false) (cs : List Char) :
    splitAt? needle (bs ++ cs) = (splitAt? needle cs).map fun p => (bs ++ p.1, p.2) := by
  induction bs with
  | nil => simp
  | cons b bs ih =>
    have hstart := startsWith_cons_of_not_isAscii hneedle hne (hbs b (by simp)) (bs ++ cs)
    rw [List.cons_append, splitAt?, hstart, ih fun d hd => hbs d (by simp [hd]), if_neg (by simp),
      Option.map_map]
    rfl

theorem splitAt?_encoded (hneedle : needle.all isAscii) (hne : needle ≠ []) (cs : List Char) :
    splitAt? needle (encoded cs) =
      (splitAt? needle cs).map fun p => (encoded p.1, encoded p.2) := by
  induction cs with
  | nil => simp [splitAt?, hne]
  | cons c cs ih =>
    cases hc : isAscii c with
    | true =>
      have hstart := startsWith_encoded hneedle (c :: cs)
      rw [encoded_cons, bytesOf_of_isAscii hc, List.singleton_append] at hstart ⊢
      rw [splitAt?, splitAt?, hstart]
      split
      · simp [bytesOf_of_isAscii hc]
      · rw [ih, Option.map_map, Option.map_map]
        congr 1
        funext p
        simp [bytesOf_of_isAscii hc]
    | false =>
      have hstart := startsWith_cons_of_not_isAscii hneedle hne hc cs
      rw [encoded_cons, splitAt?_append_of_not_isAscii hneedle hne
        fun b hb => isAscii_of_mem_bytesOf hc hb, ih, splitAt?, hstart, if_neg (by simp),
        Option.map_map, Option.map_map]
      congr 1

theorem encoded_eq_iff {xs ys : List Char} (hys : ys.all isAscii) : encoded xs = ys ↔ xs = ys := by
  have hself := encoded_of_isAscii fun c hc => List.all_eq_true.mp hys c hc
  constructor
  · intro h
    have hstart := startsWith_encoded hys xs
    rw [h, show startsWith ys ys = true by simpa using startsWith_append_self ys []] at hstart
    obtain ⟨rest, rfl⟩ := startsWith_iff.mp hstart.symm
    have hrest : encoded rest = [] := by simpa [hself] using h
    rw [encoded_eq_nil.mp hrest, List.append_nil]
  · rintro rfl
    exact hself

/-- As many bytes as some characters take. -/
def Measures (cs : List Char) (n m : Nat) : Prop := (encoded cs).take m = encoded (cs.take n)

namespace Measures

variable {cs xs ys : List Char} {n n' m m' : Nat}

theorem drop (h : Measures cs n m) : (encoded cs).drop m = encoded (cs.drop n) := by
  have hcs : encoded (cs.take n) ++ encoded (cs.drop n) = encoded cs := by
    rw [← encoded_append, List.take_append_drop]
  rw [← List.take_append_drop m (encoded cs), h] at hcs
  exact (List.append_cancel_left hcs).symm

theorem of_append (h : cs = xs ++ ys) (hn : n = xs.length) (hm : m = (encoded xs).length) :
    Measures cs n m := by
  subst h hn hm
  rw [Measures, encoded_append, List.take_left, List.take_left]

theorem zero (cs : List Char) : Measures cs 0 0 := of_append (List.nil_append cs).symm rfl rfl

theorem add (h : Measures cs n m) (h' : Measures (cs.drop n) n' m') :
    Measures cs (n + n') (m + m') := by
  rw [Measures, List.take_add, List.take_add, h, h.drop, h', encoded_append]

theorem whole (cs : List Char) : Measures cs cs.length (encoded cs).length :=
  of_append (List.append_nil cs).symm rfl rfl

theorem of_length_le (hn : cs.length ≤ n) (hm : (encoded cs).length ≤ m) : Measures cs n m := by
  rw [Measures, List.take_of_length_le hn, List.take_of_length_le hm]

theorem takeWhile (hp : Uniform p) (cs : List Char) :
    Measures cs (cs.takeWhile p).length ((encoded cs).takeWhile p).length :=
  of_append List.takeWhile_append_dropWhile.symm rfl (by rw [takeWhile_encoded hp])

theorem startsWith (h : startsWith pre cs) (hpre : pre.all isAscii) :
    Measures cs pre.length pre.length := by
  obtain ⟨rest, rfl⟩ := startsWith_iff.mp h
  refine of_append rfl rfl ?_
  rw [encoded_of_isAscii fun c hc => List.all_eq_true.mp hpre c hc]

theorem one (h : cs.head? = some d) (hd : isAscii d) : Measures cs 1 1 :=
  @startsWith [d] cs (startsWith_singleton.mpr h) (by simpa using hd)

end Measures

end SvelteSyntax.Text
