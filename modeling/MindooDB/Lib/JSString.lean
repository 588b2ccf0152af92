import Mathlib

/-!
# Lib/JSString — strings as their UTF-16 code units

A JavaScript string is a sequence of 16-bit code units.  Equality, the relational operators and the
default order of `Array.prototype.sort` all read the code units: `<` below is lexicographic on
them, which for characters outside the basic plane is *not* the order of code points.
-/

/-- **A JavaScript string**: its UTF-16 code units. -/
structure JSString where
  units : List (Fin 65536)

namespace JSString

instance neZero_units : NeZero 65536 := ⟨by decide⟩

/-- The one or two code units of a code point. -/
def encodeUtf16 (codePoint : ℕ) : List (Fin 65536) :=
  if codePoint < 0x10000 then [Fin.ofNat _ codePoint]
  else
    [Fin.ofNat _ (0xD800 + (codePoint - 0x10000) / 0x400),
      Fin.ofNat _ (0xDC00 + (codePoint - 0x10000) % 0x400)]

/-- The string of a list of code points. -/
def ofCodePoints (codePoints : List ℕ) : JSString := ⟨codePoints.flatMap encodeUtf16⟩

/-- The string a literal denotes. -/
def ofString (s : String) : JSString := ofCodePoints (s.toList.map Char.toNat)

/-- The decimal digits of a natural number. -/
def ofNat (n : ℕ) : JSString := ofCodePoints ((Nat.toDigits 10 n).map Char.toNat)

instance : Coe String JSString := ⟨ofString⟩

instance : Inhabited JSString := ⟨⟨[]⟩⟩

theorem units_injective : Function.Injective units := by
  rintro ⟨a⟩ ⟨b⟩ h
  exact congrArg mk h

/-- The order of the relational operators and of the default sort: code units, lexicographic. -/
instance : LinearOrder JSString := LinearOrder.lift' units units_injective

instance lawfulBEq : LawfulBEq JSString := inferInstance

theorem lt_def {a b : JSString} : a < b ↔ a.units < b.units := Iff.rfl

/-- The empty string is the falsy one. -/
def isEmpty (s : JSString) : Bool := s.units.isEmpty

instance : Append JSString := ⟨fun a b => ⟨a.units ++ b.units⟩⟩

theorem units_append (s t : JSString) : (s ++ t).units = s.units ++ t.units := rfl

def startsWith (s pre : JSString) : Bool := pre.units.isPrefixOf s.units

/-- `s.includes(part)`. -/
def includes (s part : JSString) : Bool := s.units.tails.any part.units.isPrefixOf

def endsWith (s suf : JSString) : Bool := suf.units.isSuffixOf s.units

/-- `s.indexOf(part)`, `none` for -1. -/
def indexOf (s part : JSString) : Option ℕ := s.units.tails.findIdx? part.units.isPrefixOf

/-- `s.lastIndexOf(part)`, `none` for -1. -/
def lastIndexOf (s part : JSString) : Option ℕ :=
  (s.units.tails.zipIdx.filter fun tail => part.units.isPrefixOf tail.1).getLast?.map Prod.snd

/-- `parts.join(sep)`. -/
def join (sep : JSString) : List JSString → JSString
  | [] => ⟨[]⟩
  | part :: parts => ⟨part.units ++ parts.flatMap fun p => sep.units ++ p.units⟩

/-- `s.split(c)`, for a separator of one code unit. -/
def split (s : JSString) (c : Char) : List JSString :=
  (s.units.splitOn (Fin.ofNat _ c.toNat)).map mk

/-- `s.slice(n)`. -/
def drop (s : JSString) (n : ℕ) : JSString := ⟨s.units.drop n⟩

/-- `s.slice(0, n)`. -/
def take (s : JSString) (n : ℕ) : JSString := ⟨s.units.take n⟩

def length (s : JSString) : ℕ := s.units.length

/-- `Array.prototype.sort` without a comparator. -/
def sort (l : List JSString) : List JSString := l.insertionSort (· ≤ ·)

theorem perm_sort (l : List JSString) : (sort l).Perm l := List.perm_insertionSort _ l

theorem pairwise_sort (l : List JSString) : (sort l).Pairwise (· ≤ ·) :=
  List.pairwise_insertionSort _ l

/-- **The default sort sees a list only up to its arrangement.** -/
theorem sort_eq_of_perm {l l' : List JSString} (h : l.Perm l') : sort l = sort l' :=
  List.Perm.eq_of_pairwise' (pairwise_sort l) (pairwise_sort l')
    ((perm_sort l).trans (h.trans (perm_sort l').symm))

end JSString

/-- `n || d`: zero and `undefined` are falsy. -/
def orFalsy (n : Option ℤ) (d : ℤ) : ℤ :=
  match n with
  | none => d
  | some n => if n = 0 then d else n
