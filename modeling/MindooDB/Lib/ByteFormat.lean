import MindooDB.Lib.TextEncoding

/-!
# Lib/ByteFormat — byte layouts that can be read back

A `ByteFormat` writes values so that they can be read back from the front of a byte sequence, a
`TotalFormat` so that they can be read back from the whole of one.  Formats are put together from
their parts; of the whole one knows that different values have different bytes
(`TotalFormat.write_injective`) and which bytes are those of a value (`TotalFormat.read_eq_some_iff`).
-/

namespace ByteFormat

open TextEncoding

/-! ## Numbers -/

/-- The last `n` bytes of a number, the most significant one first. -/
def bigEndian : ℕ → ℕ → List UInt8
  | 0, _ => []
  | n + 1, v => UInt8.ofNat (v / 256 ^ n) :: bigEndian n v

def ofBigEndian : List UInt8 → ℕ
  | [] => 0
  | byte :: bytes => byte.toNat * 256 ^ bytes.length + ofBigEndian bytes

@[simp] theorem length_bigEndian (n v : ℕ) : (bigEndian n v).length = n := by
  induction n with
  | zero => rfl
  | succ n ih => rw [bigEndian, List.length_cons, ih]

theorem ofBigEndian_bigEndian (n v : ℕ) : ofBigEndian (bigEndian n v) = v % 256 ^ n := by
  induction n with
  | zero => rw [bigEndian, ofBigEndian, pow_zero, Nat.mod_one]
  | succ n ih =>
    have hbyte : (UInt8.ofNat (v / 256 ^ n)).toNat = v / 256 ^ n % 256 := UInt8.toNat_ofNat'
    rw [bigEndian, ofBigEndian, length_bigEndian, ih, hbyte, pow_succ, Nat.mod_mul, Nat.add_comm,
      Nat.mul_comm]

theorem ofBigEndian_lt (bytes : List UInt8) : ofBigEndian bytes < 256 ^ bytes.length := by
  induction bytes with
  | nil => exact Nat.one_pos
  | cons byte bytes ih =>
    rw [ofBigEndian, List.length_cons, pow_succ]
    have hbyte : byte.toNat + 1 ≤ 256 := byte.toNat_lt
    calc byte.toNat * 256 ^ bytes.length + ofBigEndian bytes
        < byte.toNat * 256 ^ bytes.length + 256 ^ bytes.length := by omega
      _ = (byte.toNat + 1) * 256 ^ bytes.length := by ring
      _ ≤ 256 * 256 ^ bytes.length := Nat.mul_le_mul_right _ hbyte
      _ = 256 ^ bytes.length * 256 := Nat.mul_comm _ _

theorem bigEndian_add_mul (n v k : ℕ) : bigEndian n (k * 256 ^ n + v) = bigEndian n v := by
  induction n generalizing k with
  | zero => rfl
  | succ n ih =>
    have hpos : 0 < 256 ^ n := Nat.pow_pos (by decide)
    have hshift : k * 256 ^ (n + 1) + v = v + 256 ^ n * (256 * k) := by ring
    rw [bigEndian, bigEndian]
    congr 1
    · rw [hshift, Nat.add_mul_div_left _ _ hpos, ← UInt8.toNat_inj, UInt8.toNat_ofNat',
        UInt8.toNat_ofNat', Nat.add_mul_mod_self_left]
    · rw [show k * 256 ^ (n + 1) + v = (256 * k) * 256 ^ n + v by ring]
      exact ih _

theorem bigEndian_ofBigEndian (bytes : List UInt8) :
    bigEndian bytes.length (ofBigEndian bytes) = bytes := by
  induction bytes with
  | nil => rfl
  | cons byte bytes ih =>
    have hpos : 0 < 256 ^ bytes.length := Nat.pow_pos (by decide)
    rw [List.length_cons, bigEndian, ofBigEndian, bigEndian_add_mul, ih, Nat.add_comm,
      Nat.add_mul_div_right _ _ hpos, Nat.div_eq_of_lt (ofBigEndian_lt bytes), Nat.zero_add,
      UInt8.ofNat_toNat]

end ByteFormat

/-! ## Formats -/

/-- **A format that can be read back from the front.** -/
structure ByteFormat (α : Type) where
  write : α → List UInt8
  read : List UInt8 → Option (α × List UInt8)
  /-- The values that it is for. -/
  Fits : α → Prop
  read_write : ∀ {a}, Fits a → ∀ rest, read (write a ++ rest) = some (a, rest)
  write_read : ∀ {bytes a rest}, read bytes = some (a, rest) → Fits a ∧ write a ++ rest = bytes

/-- **A format that can be read back from the whole.** -/
structure TotalFormat (α : Type) where
  write : α → List UInt8
  read : List UInt8 → Option α
  Fits : α → Prop
  read_write : ∀ {a}, Fits a → read (write a) = some a
  write_read : ∀ {bytes a}, read bytes = some a → Fits a ∧ write a = bytes

namespace ByteFormat

open TextEncoding

variable {α β : Type}

/-- A number in so many bytes. -/
def uint (n : ℕ) : ByteFormat ℕ where
  write := bigEndian n
  read bytes := if n ≤ bytes.length then some (ofBigEndian (bytes.take n), bytes.drop n) else none
  Fits v := v < 256 ^ n
  read_write {v} hv rest := by
    have hlength := length_bigEndian n v
    rw [if_pos (by rw [List.length_append, hlength]; exact Nat.le_add_right _ _),
      List.take_left' hlength, List.drop_left' hlength, ofBigEndian_bigEndian, Nat.mod_eq_of_lt hv]
  write_read {bytes v rest} h := by
    by_cases hn : n ≤ bytes.length
    · rw [if_pos hn, Option.some.injEq, Prod.mk.injEq] at h
      obtain ⟨rfl, rfl⟩ := h
      have hlength : (bytes.take n).length = n := List.length_take_of_le hn
      have hlt := ofBigEndian_lt (bytes.take n)
      have hback := bigEndian_ofBigEndian (bytes.take n)
      rw [hlength] at hlt hback
      exact ⟨hlt, by rw [hback, List.take_append_drop]⟩
    · rw [if_neg hn] at h
      exact nomatch h

/-- Values that stand for those of another format. -/
def restrict (fmt : ByteFormat α) (image : β → α) (of : α → Option β) (Ok : β → Prop)
    (hof : ∀ {b}, Ok b → of (image b) = some b)
    (himage : ∀ {a b}, of a = some b → Ok b ∧ image b = a) :
    ByteFormat β where
  write b := fmt.write (image b)
  read bytes := (fmt.read bytes).bind fun p => (of p.1).map fun b => (b, p.2)
  Fits b := Ok b ∧ fmt.Fits (image b)
  read_write {b} hb rest := by
    rw [fmt.read_write hb.2, Option.bind_some, hof hb.1]
    rfl
  write_read {bytes b rest} h := by
    obtain ⟨⟨a, rest'⟩, hread, hmap⟩ := Option.bind_eq_some_iff.mp h
    obtain ⟨b', hb', heq⟩ := Option.map_eq_some_iff.mp hmap
    obtain ⟨rfl, rfl⟩ := Prod.mk.inj heq
    obtain ⟨hok, hback⟩ := himage hb'
    obtain ⟨hfits, hbytes⟩ := fmt.write_read hread
    rw [hback]
    exact ⟨⟨hok, hfits⟩, hbytes⟩

/-- One after the other. -/
def pair (fmt : ByteFormat α) (fmt' : ByteFormat β) : ByteFormat (α × β) where
  write p := fmt.write p.1 ++ fmt'.write p.2
  read bytes := (fmt.read bytes).bind fun p => (fmt'.read p.2).map fun q => ((p.1, q.1), q.2)
  Fits p := fmt.Fits p.1 ∧ fmt'.Fits p.2
  read_write {p} hp rest := by
    rw [List.append_assoc, fmt.read_write hp.1, Option.bind_some, fmt'.read_write hp.2]
    rfl
  write_read {bytes p rest} h := by
    obtain ⟨⟨a, middle⟩, hread, hmap⟩ := Option.bind_eq_some_iff.mp h
    obtain ⟨⟨b, rest'⟩, hread', heq⟩ := Option.map_eq_some_iff.mp hmap
    obtain ⟨rfl, rfl⟩ := Prod.mk.inj heq
    obtain ⟨ha, hbytes⟩ := fmt.write_read hread
    obtain ⟨hb, hmiddle⟩ := fmt'.write_read hread'
    refine ⟨⟨ha, hb⟩, ?_⟩
    rw [List.append_assoc, hmiddle, hbytes]

/-- Bytes of a given number. -/
def exactly (n : ℕ) : ByteFormat (List UInt8) where
  write := id
  read bytes := if n ≤ bytes.length then some (bytes.take n, bytes.drop n) else none
  Fits bytes := bytes.length = n
  read_write {bytes} hbytes rest := by
    rw [id, if_pos (by rw [List.length_append, hbytes]; exact Nat.le_add_right _ _),
      List.take_left' hbytes, List.drop_left' hbytes]
  write_read {bytes a rest} h := by
    by_cases hn : n ≤ bytes.length
    · rw [if_pos hn, Option.some.injEq, Prod.mk.injEq] at h
      obtain ⟨rfl, rfl⟩ := h
      exact ⟨List.length_take_of_le hn, List.take_append_drop n bytes⟩
    · rw [if_neg hn] at h
      exact nomatch h

/-- Read so many values. -/
def readTimes (fmt : ByteFormat α) : ℕ → List UInt8 → Option (List α × List UInt8)
  | 0, bytes => some ([], bytes)
  | n + 1, bytes => (fmt.read bytes).bind fun p =>
    (fmt.readTimes n p.2).map fun q => (p.1 :: q.1, q.2)

theorem readTimes_flatMap (fmt : ByteFormat α) {l : List α} (h : ∀ a ∈ l, fmt.Fits a)
    (rest : List UInt8) :
    fmt.readTimes l.length (l.flatMap fmt.write ++ rest) = some (l, rest) := by
  induction l with
  | nil => rfl
  | cons a l ih =>
    obtain ⟨ha, hl⟩ := List.forall_mem_cons.mp h
    rw [List.length_cons, readTimes, List.flatMap_cons, List.append_assoc, fmt.read_write ha,
      Option.bind_some, ih hl]
    rfl

theorem flatMap_of_readTimes (fmt : ByteFormat α) {n : ℕ} {bytes rest : List UInt8} {l : List α}
    (h : fmt.readTimes n bytes = some (l, rest)) :
    (l.length = n ∧ ∀ a ∈ l, fmt.Fits a) ∧ l.flatMap fmt.write ++ rest = bytes := by
  induction n generalizing bytes l with
  | zero =>
    obtain ⟨rfl, rfl⟩ := Prod.mk.inj (Option.some.inj h)
    exact ⟨⟨rfl, by simp⟩, rfl⟩
  | succ n ih =>
    obtain ⟨⟨a, middle⟩, hread, hmap⟩ := Option.bind_eq_some_iff.mp h
    obtain ⟨⟨l', rest'⟩, hread', heq⟩ := Option.map_eq_some_iff.mp hmap
    obtain ⟨rfl, rfl⟩ := Prod.mk.inj heq
    obtain ⟨ha, hbytes⟩ := fmt.write_read hread
    obtain ⟨⟨hlength, hall⟩, hmiddle⟩ := ih hread'
    refine ⟨⟨by rw [List.length_cons, hlength], List.forall_mem_cons.mpr ⟨ha, hall⟩⟩, ?_⟩
    rw [List.flatMap_cons, List.append_assoc, hmiddle, hbytes]

/-- So many values. -/
def times (fmt : ByteFormat α) (n : ℕ) : ByteFormat (List α) where
  write l := l.flatMap fmt.write
  read := fmt.readTimes n
  Fits l := l.length = n ∧ ∀ a ∈ l, fmt.Fits a
  read_write {l} hl rest := by
    rw [← hl.1]
    exact fmt.readTimes_flatMap hl.2 rest
  write_read := fmt.flatMap_of_readTimes

/-- A number and what it says follows. -/
def measured (count : ByteFormat ℕ) (size : α → ℕ) (fmt : ℕ → ByteFormat α)
    (hsize : ∀ {n a}, (fmt n).Fits a → size a = n) : ByteFormat α where
  write a := count.write (size a) ++ (fmt (size a)).write a
  read bytes := (count.read bytes).bind fun p => (fmt p.1).read p.2
  Fits a := count.Fits (size a) ∧ (fmt (size a)).Fits a
  read_write {a} ha rest := by
    rw [List.append_assoc, count.read_write ha.1, Option.bind_some, (fmt _).read_write ha.2]
  write_read {bytes a rest} h := by
    obtain ⟨⟨n, middle⟩, hread, hread'⟩ := Option.bind_eq_some_iff.mp h
    obtain ⟨hn, hbytes⟩ := count.write_read hread
    obtain ⟨ha, hmiddle⟩ := (fmt n).write_read hread'
    obtain rfl := hsize ha
    refine ⟨⟨hn, ha⟩, ?_⟩
    rw [List.append_assoc, hmiddle, hbytes]

/-- Bytes behind their number. -/
def lengthPrefixed (width : ℕ) : ByteFormat (List UInt8) :=
  measured (uint width) List.length exactly id

/-- Values behind their number. -/
def counted (width : ℕ) (fmt : ByteFormat α) : ByteFormat (List α) :=
  measured (uint width) List.length fmt.times And.left

/-- A string, in UTF-8, behind the number of its bytes. -/
def text (width : ℕ) : ByteFormat JSString :=
  (lengthPrefixed width).restrict encode decode IsWellFormed
    decode_encode encode_of_decode

theorem text_fits {width : ℕ} {s : JSString} : (text width).Fits s ↔
    IsWellFormed s ∧ (encode s).length < 256 ^ width :=
  and_congr_right fun _ => and_iff_left rfl

theorem lengthPrefixed_fits {width : ℕ} {bytes : List UInt8} :
    (lengthPrefixed width).Fits bytes ↔ bytes.length < 256 ^ width := and_iff_left rfl

theorem counted_fits {width : ℕ} {fmt : ByteFormat α} {l : List α} :
    (counted width fmt).Fits l ↔ l.length < 256 ^ width ∧ ∀ a ∈ l, fmt.Fits a :=
  and_congr_right fun _ => and_iff_right rfl

/-- A signed integer of 64 bits. -/
def int64 : ByteFormat ℤ :=
  (uint 8).restrict (fun v => (v % 2 ^ 64).toNat)
    (fun n => if n < 2 ^ 63 then some (n : ℤ) else if n < 2 ^ 64 then some (n - 2 ^ 64) else none)
    (fun v => -2 ^ 63 ≤ v ∧ v < 2 ^ 63)
    (fun {v} hv => by
      rcases lt_or_ge v 0 with hneg | hpos
      · have hmod : v % 2 ^ 64 = v + 2 ^ 64 := by omega
        rw [hmod, if_neg (by omega), if_pos (by omega), Option.some.injEq]
        omega
      · have hmod : v % 2 ^ 64 = v := by omega
        rw [hmod, if_pos (by omega), Option.some.injEq]
        omega)
    (fun {n v} hn => by
      split_ifs at hn with hsmall hbig
      · obtain rfl := Option.some.inj hn
        omega
      · obtain rfl := Option.some.inj hn
        omega)

theorem int64_fits {v : ℤ} : int64.Fits v ↔ -2 ^ 63 ≤ v ∧ v < 2 ^ 63 := by
  refine and_iff_left_of_imp fun _ => ?_
  change (v % 2 ^ 64).toNat < 256 ^ 8
  omega

/-- A value behind a byte that announces it. -/
def tagged (tag : UInt8) (fmt : ByteFormat α) : ByteFormat α where
  write a := tag :: fmt.write a
  read
    | [] => none
    | byte :: bytes => if byte = tag then fmt.read bytes else none
  Fits := fmt.Fits
  read_write {a} ha rest := by
    rw [List.cons_append]
    exact (if_pos rfl).trans (fmt.read_write ha rest)
  write_read {bytes a rest} h := by
    cases bytes with
    | nil => exact nomatch h
    | cons byte bytes =>
      change (if byte = tag then fmt.read bytes else none) = some (a, rest) at h
      by_cases htag : byte = tag
      · rw [if_pos htag] at h
        obtain ⟨ha, hbytes⟩ := fmt.write_read h
        rw [List.cons_append, hbytes, htag]
        exact ⟨ha, rfl⟩
      · rw [if_neg htag] at h
        exact nomatch h

end ByteFormat

namespace TotalFormat

open TextEncoding

variable {α β : Type}

theorem write_injective (fmt : TotalFormat α) {a b : α} (ha : fmt.Fits a) (hb : fmt.Fits b)
    (h : fmt.write a = fmt.write b) : a = b := by
  have hread := fmt.read_write ha
  rw [h, fmt.read_write hb] at hread
  exact (Option.some.inj hread).symm

/-- **Reading tells which bytes are those of a value.** -/
theorem read_eq_some_iff (fmt : TotalFormat α) {bytes : List UInt8} {a : α} :
    fmt.read bytes = some a ↔ fmt.Fits a ∧ fmt.write a = bytes := by
  refine ⟨fmt.write_read, ?_⟩
  rintro ⟨ha, rfl⟩
  exact fmt.read_write ha

/-- Nothing. -/
def none : TotalFormat Unit where
  write _ := []
  read bytes := if bytes.isEmpty then some () else Option.none
  Fits _ := True
  read_write _ := rfl
  write_read {bytes a} h := by
    cases bytes with
    | nil => exact ⟨trivial, rfl⟩
    | cons byte bytes => exact nomatch h

/-- Whatever is there. -/
def bytes : TotalFormat (List UInt8) where
  write := id
  read := some
  Fits _ := True
  read_write _ := rfl
  write_read h := ⟨trivial, (Option.some.inj h).symm⟩

/-- What comes first, then the rest. -/
def cons (fmt : ByteFormat α) (tail : TotalFormat β) : TotalFormat (α × β) where
  write p := fmt.write p.1 ++ tail.write p.2
  read bytes := (fmt.read bytes).bind fun p => (tail.read p.2).map fun b => (p.1, b)
  Fits p := fmt.Fits p.1 ∧ tail.Fits p.2
  read_write {p} hp := by
    rw [fmt.read_write hp.1, Option.bind_some, tail.read_write hp.2]
    rfl
  write_read {bytes p} h := by
    obtain ⟨⟨a, rest⟩, hread, hmap⟩ := Option.bind_eq_some_iff.mp h
    obtain ⟨b, hb, rfl⟩ := Option.map_eq_some_iff.mp hmap
    obtain ⟨ha, hbytes⟩ := fmt.write_read hread
    obtain ⟨hfits, hrest⟩ := tail.write_read hb
    refine ⟨⟨ha, hfits⟩, ?_⟩
    rw [hrest, hbytes]

/-- A block that may be absent: its first byte tells it from the rest. -/
def optional (fmt : ByteFormat α) (tail : TotalFormat β) (starts : UInt8 → Bool)
    (hstarts : ∀ {a}, fmt.Fits a → (fmt.write a).head?.any starts = true)
    (htail : ∀ {b}, tail.Fits b → (tail.write b).head?.any starts = false) :
    TotalFormat (Option α × β) where
  write p := p.1.elim [] fmt.write ++ tail.write p.2
  read bytes :=
    if bytes.head?.any starts then ((cons fmt tail).read bytes).map fun p => (some p.1, p.2)
    else (tail.read bytes).map fun b => (Option.none, b)
  Fits p := (∀ a, p.1 = some a → fmt.Fits a) ∧ tail.Fits p.2
  read_write {p} hp := by
    obtain ⟨block, b⟩ := p
    cases block with
    | none =>
      change (if (tail.write b).head?.any starts then
        ((cons fmt tail).read (tail.write b)).map _ else (tail.read (tail.write b)).map _) = _
      rw [htail hp.2, tail.read_write hp.2]
      rfl
    | some a =>
      have hfirst : (fmt.write a ++ tail.write b).head?.any starts = true := by
        obtain ⟨byte, hbyte, hok⟩ := Option.any_eq_true _ _ |>.mp (hstarts (hp.1 a rfl))
        rw [List.head?_append, hbyte]
        exact hok
      have hfits : (cons fmt tail).Fits (a, b) := And.intro (hp.1 a rfl) hp.2
      change (if (fmt.write a ++ tail.write b).head?.any starts then
        ((cons fmt tail).read ((cons fmt tail).write (a, b))).map _ else _) = _
      rw [if_pos hfirst, (cons fmt tail).read_write hfits]
      rfl
  write_read {bytes p} h := by
    by_cases hfirst : bytes.head?.any starts = true
    · rw [if_pos hfirst] at h
      obtain ⟨⟨a, b⟩, hread, rfl⟩ := Option.map_eq_some_iff.mp h
      obtain ⟨hfits, hbytes⟩ := (cons fmt tail).write_read hread
      obtain ⟨ha, hb⟩ : fmt.Fits a ∧ tail.Fits b := hfits
      refine ⟨⟨?_, hb⟩, hbytes⟩
      rintro a' ⟨⟩
      exact ha
    · rw [if_neg hfirst] at h
      obtain ⟨b, hb, rfl⟩ := Option.map_eq_some_iff.mp h
      obtain ⟨hfits, hbytes⟩ := tail.write_read hb
      refine ⟨⟨?_, hfits⟩, hbytes⟩
      rintro a' ⟨⟩

end TotalFormat
