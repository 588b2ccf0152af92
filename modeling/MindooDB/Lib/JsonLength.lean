import MindooDB.Lib.JsonTree

/-!
# Lib/JsonLength — how long the bytes of a JSON text are

Texts of Unicode scalar values are encoded one after the other, so that an array is as long as an
empty one, its items and the commas between them, and an object's last member adds its own length.
-/

namespace TextEncoding

theorem encode_append {s t : JSString} (hs : IsWellFormed s) (ht : IsWellFormed t) :
    encode (s ++ t) = encode s ++ encode t := by
  obtain ⟨chars, rfl⟩ := hs
  obtain ⟨chars', rfl⟩ := ht
  rw [← ofChars_append, encode, encode, encode, scalarValues_ofChars, scalarValues_ofChars,
    scalarValues_ofChars, List.flatMap_append]

end TextEncoding

open TextEncoding

namespace JsonText

theorem join_cons_cons (part part' : JSString) (parts : List JSString) :
    JSString.join "," (part :: part' :: parts)
      = part ++ (("," : JSString) ++ JSString.join "," (part' :: parts)) :=
  JSString.units_injective (JsonTree.units_join_cons_cons "," part part' parts)

/-- A text joined with commas. -/
theorem length_encode_join {part : JSString} {parts : List JSString}
    (hparts : ∀ text ∈ part :: parts, IsWellFormed text) :
    (encode (JSString.join "," (part :: parts))).length
      = (encode part).length + (parts.map fun text => 1 + (encode text).length).sum := by
  induction parts generalizing part with
  | nil =>
    have hjoin : JSString.join "," [part] = part :=
      JSString.units_injective (JsonTree.units_join_singleton "," part)
    rw [hjoin]
    rfl
  | cons part' parts ih =>
    obtain ⟨hpart, hrest⟩ := List.forall_mem_cons.mp hparts
    have hjoin := isWellFormed_join hrest
    rw [join_cons_cons, encode_append hpart ((isWellFormed_ofString ",").append hjoin),
      encode_append (isWellFormed_ofString ",") hjoin, List.length_append, List.length_append,
      ih hrest, List.map_cons, List.sum_cons,
      show (encode ("," : JSString)).length = 1 by decide +kernel]
    omega

/-- An array is as long as an empty one and what stands in it. -/
theorem length_encode_array {items : List JSString} (h : ∀ item ∈ items, IsWellFormed item) :
    (encode (array items)).length
      = (encode (array [])).length + (encode (JSString.join "," items)).length := by
  have hopen : IsWellFormed ("[" : JSString) := isWellFormed_ofString "["
  have hclose : IsWellFormed ("]" : JSString) := isWellFormed_ofString "]"
  have hlength : ∀ inside : JSString, IsWellFormed inside →
      (encode (("[" : JSString) ++ inside ++ ("]" : JSString))).length
        = (encode ("[" : JSString)).length + (encode inside).length
          + (encode ("]" : JSString)).length := by
    intro inside hinside
    rw [encode_append (hopen.append hinside) hclose, encode_append hopen hinside,
      List.length_append, List.length_append]
  rw [array, array, hlength _ (isWellFormed_join h),
    hlength _ (isWellFormed_join fun _ hitem => absurd hitem List.not_mem_nil)]
  have hempty : (encode (JSString.join "," [])).length = 0 := rfl
  omega

end JsonText

namespace JsonTree

open JsonText

theorem stringifyItems_eq_map (items : List JsonTree) :
    stringifyItems items = items.map stringify := by
  induction items with
  | nil => rfl
  | cons item items ih => rw [stringifyItems, ih, List.map_cons]

theorem stringifyMembers_append (members members' : List (JSString × JsonTree)) :
    stringifyMembers (members ++ members')
      = stringifyMembers members ++ stringifyMembers members' := by
  induction members with
  | nil => rfl
  | cons member members ih =>
    rw [List.cons_append, stringifyMembers, stringifyMembers, ih, List.cons_append]

/-- **The last member** of an object adds its own length. -/
theorem length_stringify_snoc (member : JSString × JsonTree)
    (members : List (JSString × JsonTree)) (name : JSString) :
    ∃ n, ∀ value, (encode (object (member :: members ++ [(name, value)])).stringify).length
      = n + (encode value.stringify).length := by
  obtain ⟨first, value'⟩ := member
  refine ⟨(encode ("\x7b" : JSString)).length
    + (encode (JsonText.quote first ++ (":" : JSString) ++ value'.stringify)).length
    + ((stringifyMembers members).map fun text => 1 + (encode text).length).sum
    + (1 + (encode (JsonText.quote name ++ (":" : JSString))).length)
    + (encode ("\x7d" : JSString)).length, fun value => ?_⟩
  have hwell := isWellFormed_stringifyMembers ((first, value') :: members ++ [(name, value)])
  have hname : IsWellFormed (JsonText.quote name ++ (":" : JSString)) :=
    (JsonText.isWellFormed_quote name).append (isWellFormed_ofString ":")
  have hopen : IsWellFormed ("\x7b" : JSString) := isWellFormed_ofString "\x7b"
  have hjoin := JsonText.isWellFormed_join hwell
  rw [stringify, JsonText.object, encode_append (hopen.append hjoin)
    (isWellFormed_ofString "\x7d"), encode_append hopen hjoin, List.length_append,
    List.length_append]
  rw [List.cons_append, stringifyMembers, stringifyMembers_append] at hwell ⊢
  rw [length_encode_join hwell, List.map_append, List.sum_append, stringifyMembers,
    stringifyMembers, List.map_singleton, List.sum_singleton,
    encode_append hname (isWellFormed_stringify value), List.length_append]
  omega

end JsonTree
