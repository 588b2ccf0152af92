import MindooDB.Lib.JSString

/-!
# Lib/JSStringParts — the parts of a string

What `join` puts together, `split` takes apart again, as long as no part has the separator.  With
a separator that is one unit twice, parts may be joined by the unit once (`splitTwice_join_append`).
`indexOf` of one code unit finds its first place (`indexOf_unit`).
-/

namespace JSString

theorem startsWith_append (pre rest : JSString) : (pre ++ rest).startsWith pre = true :=
  List.isPrefixOf_iff_prefix.mpr (List.prefix_append _ _)

theorem drop_append (pre rest : JSString) : (pre ++ rest).drop pre.length = rest :=
  units_injective (List.drop_left)

theorem take_append (pre rest : JSString) : (pre ++ rest).take pre.length = pre :=
  units_injective (List.take_left)

theorem append_assoc (s t u : JSString) : s ++ t ++ u = s ++ (t ++ u) :=
  units_injective (List.append_assoc _ _ _)

/-- The first place of a code unit. -/
theorem indexOf_unit (unit : Fin 65536) (s : JSString) :
    match s.indexOf ⟨[unit]⟩ with
    | none => unit ∉ s.units
    | some i => s.units = (s.take i).units ++ unit :: (s.drop (i + 1)).units
        ∧ unit ∉ (s.take i).units := by
  obtain ⟨units⟩ := s
  unfold indexOf take drop
  dsimp only
  induction units with
  | nil => exact List.not_mem_nil
  | cons c units ih =>
    rw [List.tails_cons, List.findIdx?_cons]
    by_cases hc : unit = c
    · rw [hc]
      simp
    · have hno : List.isPrefixOf [unit] (c :: units) = false := by
        simp [List.isPrefixOf, hc]
      rw [hno]
      cases hfind : units.tails.findIdx? (List.isPrefixOf [unit]) with
      | none =>
        rw [hfind] at ih
        exact fun hmem => (List.mem_cons.mp hmem).elim hc ih
      | some i =>
        rw [hfind] at ih
        exact ⟨congrArg (c :: ·) ih.1, fun hmem => (List.mem_cons.mp hmem).elim hc ih.2⟩

/-- A code unit that is somewhere. -/
theorem includes_unit {unit : Fin 65536} {s : JSString} :
    s.includes ⟨[unit]⟩ = true ↔ unit ∈ s.units := by
  obtain ⟨units⟩ := s
  unfold includes
  dsimp only
  induction units with
  | nil => simp [List.isPrefixOf]
  | cons c units ih =>
    rw [List.tails_cons, List.any_cons, Bool.or_eq_true, ih, List.mem_cons]
    simp [List.isPrefixOf]

end JSString

namespace JSString

section Separator

variable {α : Type} [DecidableEq α] {a : α} {l l' rest rest' : List α}

/-- What stands before the first separator. -/
theorem takeWhile_separator (h : a ∉ l) (rest : List α) : (l ++ a :: rest).takeWhile (· ≠ a) = l
      ∧ (l ++ a :: rest).dropWhile (· ≠ a) = a :: rest := by
  have hall : ∀ b ∈ l, decide (b ≠ a) = true := by
    intro b hb
    rw [decide_eq_true_eq]
    rintro rfl
    exact h hb
  rw [List.takeWhile_append_of_pos hall, List.dropWhile_append_of_pos hall,
    List.takeWhile_cons_of_neg (by simp), List.dropWhile_cons_of_neg (by simp), List.append_nil]
  exact ⟨rfl, rfl⟩

theorem separator_inj (h : a ∉ l) (h' : a ∉ l') (heq : l ++ a :: rest = l' ++ a :: rest') :
    l = l' ∧ rest = rest' := by
  obtain ⟨htake, hdrop⟩ := takeWhile_separator h rest
  obtain ⟨htake', hdrop'⟩ := takeWhile_separator h' rest'
  rw [heq] at htake hdrop
  exact ⟨htake.symm.trans htake', (List.cons.inj (hdrop.symm.trans hdrop')).2⟩

end Separator

/-! ## One unit -/

theorem units_join (unit : Fin 65536) (parts : List JSString) :
    (join ⟨[unit]⟩ parts).units = [unit].intercalate (parts.map units) := by
  cases parts with
  | nil => rfl
  | cons part parts =>
    rw [join, List.map_cons]
    dsimp only
    induction parts generalizing part with
    | nil => rw [List.flatMap_nil, List.append_nil, List.map_nil, List.intercalate_singleton]
    | cons part' parts ih =>
      rw [List.map_cons, List.intercalate_cons_cons, ← ih, List.flatMap_cons]
      simp only [List.append_assoc]

/-- `s.split(c)`, by the unit. -/
theorem split_eq (s : JSString) (c : Char) :
    s.split c = (s.units.splitOn (Fin.ofNat _ c.toNat)).map mk := rfl

/-- **Parts without the separator are found again.** -/
theorem split_join_unit {c : Char} {parts : List JSString} (hne : parts ≠ [])
    (h : ∀ part ∈ parts, Fin.ofNat _ c.toNat ∉ part.units) :
    (join ⟨[Fin.ofNat _ c.toNat]⟩ parts).split c = parts := by
  have hunits : ∀ l ∈ parts.map units, Fin.ofNat _ c.toNat ∉ l := List.forall_mem_map.mpr h
  rw [split_eq, units_join, List.splitOn_intercalate _ hunits (by simpa using hne), List.map_map]
  exact List.map_id parts

theorem join_split_unit (s : JSString) (c : Char) :
    join ⟨[Fin.ofNat _ c.toNat]⟩ (s.split c) = s := by
  refine units_injective ?_
  rw [units_join, split_eq, List.map_map]
  exact (congrArg _ (List.map_id _)).trans (List.intercalate_splitOn _)

/-! ## One unit twice -/

/-- The pieces between the places where a unit stands twice. -/
def piecesTwice {α : Type} [DecidableEq α] (c : α) : List α → List (List α)
  | [] => [[]]
  | [a] => [[a]]
  | a :: b :: rest =>
    if a = c ∧ b = c then [] :: piecesTwice c rest
    else (piecesTwice c (b :: rest)).modifyHead (a :: ·)

/-- `s.split(c + c)`. -/
def splitTwice (s : JSString) (c : Char) : List JSString :=
  (piecesTwice (Fin.ofNat _ c.toNat) s.units).map mk

section Pieces

variable {α : Type} [DecidableEq α] {a b c : α}

theorem piecesTwice_ne_nil (l : List α) : piecesTwice c l ≠ [] := by
  fun_induction piecesTwice c l with
  | case1 | case2 | case3 => exact List.cons_ne_nil _ _
  | case4 a b rest _ ih => exact fun h => ih (List.modifyHead_eq_nil_iff.mp h)

theorem intercalate_piecesTwice (l : List α) : [c, c].intercalate (piecesTwice c l) = l := by
  fun_induction piecesTwice c l with
  | case1 | case2 => rfl
  | case3 a b rest h ih =>
    rw [List.intercalate_cons_of_ne_nil (piecesTwice_ne_nil rest), ih, h.1, h.2]
    rfl
  | case4 a b rest h ih =>
    obtain ⟨first, others, hpieces⟩ :=
      List.exists_cons_of_ne_nil (piecesTwice_ne_nil (c := c) (b :: rest))
    rw [hpieces] at ih ⊢
    rw [List.modifyHead_cons, List.intercalate_cons_cons_left, ih]

theorem piecesTwice_cons_of_ne (h : a ≠ c) (rest : List α) :
    piecesTwice c (a :: rest) = (piecesTwice c rest).modifyHead (a :: ·) := by
  cases rest with
  | nil => rfl
  | cons b rest => rw [piecesTwice, if_neg fun hboth => h hboth.1]

theorem piecesTwice_once (h : b ≠ c) (rest : List α) :
    piecesTwice c (c :: b :: rest) = (piecesTwice c (b :: rest)).modifyHead (c :: ·) := by
  rw [piecesTwice, if_neg fun hboth => h hboth.2]

theorem piecesTwice_append (l : List α) (h : c ∉ l) (rest : List α) :
    piecesTwice c (l ++ rest) = (piecesTwice c rest).modifyHead (l ++ ·) := by
  induction l with
  | nil => exact List.modifyHead_id.symm ▸ rfl
  | cons a l ih =>
    obtain ⟨ha, hl⟩ := not_or.mp (mt List.mem_cons.mpr h)
    rw [List.cons_append, piecesTwice_cons_of_ne (Ne.symm ha), ih hl, List.modifyHead_modifyHead]
    rfl

/-- **Parts that are joined by the unit once** stay in one piece. -/
theorem piecesTwice_intercalate_append {parts : List (List α)} (hne : parts ≠ [])
    (h : ∀ part ∈ parts, part ≠ [] ∧ c ∉ part) (rest : List α) :
    piecesTwice c ([c].intercalate parts ++ rest)
      = (piecesTwice c rest).modifyHead ([c].intercalate parts ++ ·) := by
  induction parts with
  | nil => exact absurd rfl hne
  | cons part parts ih =>
    obtain ⟨-, hpart⟩ := h part List.mem_cons_self
    cases parts with
    | nil =>
      rw [List.intercalate_singleton]
      exact piecesTwice_append part hpart rest
    | cons part' parts =>
      have hrest := ih (List.cons_ne_nil _ _) fun p hp => h p (List.mem_cons_of_mem _ hp)
      obtain ⟨hne', hpart'⟩ := h part' (List.mem_cons_of_mem _ List.mem_cons_self)
      obtain ⟨b, l, hcons⟩ := List.exists_cons_of_ne_nil hne'
      obtain ⟨tail, htail⟩ : ∃ tail, [c].intercalate (part' :: parts) = b :: tail := by
        cases parts with
        | nil => exact ⟨l, by rw [List.intercalate_singleton, hcons]⟩
        | cons part'' parts =>
          rw [List.intercalate_cons_cons, hcons]
          exact ⟨_, rfl⟩
      have hb : b ≠ c := by
        rintro rfl
        exact hpart' (hcons ▸ List.mem_cons_self)
      rw [List.intercalate_cons_cons, List.append_assoc, List.append_assoc,
        piecesTwice_append part hpart]
      rw [htail, List.cons_append] at hrest
      rw [htail, List.cons_append, List.nil_append, List.cons_append, piecesTwice_once hb, hrest,
        List.modifyHead_modifyHead, List.modifyHead_modifyHead]
      congr 1
      funext piece
      simp

end Pieces

section SplitTwice

variable {c : Char} {parts : List JSString}

/-- A string of parts that have none of the unit, joined by it. -/
theorem splitTwice_join (hne : parts ≠ [])
    (h : ∀ part ∈ parts, part.units ≠ [] ∧ Fin.ofNat _ c.toNat ∉ part.units) :
    (join ⟨[Fin.ofNat _ c.toNat]⟩ parts).splitTwice c = [join ⟨[Fin.ofNat _ c.toNat]⟩ parts] := by
  have hunits : ∀ l ∈ parts.map units, l ≠ [] ∧ Fin.ofNat _ c.toNat ∉ l :=
    List.forall_mem_map.mpr h
  have hpieces := piecesTwice_intercalate_append (by simpa using hne) hunits []
  rw [List.append_nil, piecesTwice, List.modifyHead_cons, List.append_nil, ← units_join] at hpieces
  exact congrArg (List.map mk) hpieces

/-- **Joined parts in front of the separator** are the first piece. -/
theorem splitTwice_join_append
    (h : ∀ part ∈ parts, part.units ≠ [] ∧ Fin.ofNat _ c.toNat ∉ part.units) (rest : JSString) :
    (join ⟨[Fin.ofNat _ c.toNat]⟩ parts
        ++ ((⟨[Fin.ofNat _ c.toNat, Fin.ofNat _ c.toNat]⟩ : JSString) ++ rest)).splitTwice c
      = join ⟨[Fin.ofNat _ c.toNat]⟩ parts :: rest.splitTwice c := by
  have htwice : piecesTwice (Fin.ofNat 65536 c.toNat)
      (Fin.ofNat 65536 c.toNat :: Fin.ofNat 65536 c.toNat :: rest.units)
      = [] :: piecesTwice (Fin.ofNat 65536 c.toNat) rest.units := by
    rw [piecesTwice, if_pos ⟨rfl, rfl⟩]
  rcases eq_or_ne parts [] with rfl | hne
  · exact congrArg (List.map mk) htwice
  · have hunits : ∀ l ∈ parts.map units, l ≠ [] ∧ Fin.ofNat _ c.toNat ∉ l := by
      intro l hl
      obtain ⟨part, hpart, rfl⟩ := List.mem_map.mp hl
      exact h part hpart
    have hpieces := piecesTwice_intercalate_append (by simpa using hne) hunits
      (Fin.ofNat 65536 c.toNat :: Fin.ofNat 65536 c.toNat :: rest.units)
    rw [htwice, List.modifyHead_cons, List.append_nil, ← units_join] at hpieces
    exact congrArg (List.map mk) hpieces

theorem map_units_splitTwice (s : JSString) (c : Char) :
    (s.splitTwice c).map units = piecesTwice (Fin.ofNat _ c.toNat) s.units := by
  rw [splitTwice, List.map_map]
  exact List.map_id _

theorem eq_of_splitTwice_eq_singleton {s piece : JSString} (h : s.splitTwice c = [piece]) :
    s = piece := by
  have hjoin := intercalate_piecesTwice (c := Fin.ofNat 65536 c.toNat) s.units
  rw [← map_units_splitTwice, h, List.map_singleton, List.intercalate_singleton] at hjoin
  exact units_injective hjoin.symm

theorem eq_of_splitTwice_eq_pair {s left right : JSString} (h : s.splitTwice c = [left, right]) :
    s = left ++ ((⟨[Fin.ofNat _ c.toNat, Fin.ofNat _ c.toNat]⟩ : JSString) ++ right) := by
  have hjoin := intercalate_piecesTwice (c := Fin.ofNat 65536 c.toNat) s.units
  rw [← map_units_splitTwice, h, List.map_cons, List.map_singleton, List.intercalate_cons_cons,
    List.intercalate_singleton, List.append_assoc] at hjoin
  exact units_injective hjoin.symm

end SplitTwice

end JSString
