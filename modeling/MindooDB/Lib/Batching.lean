import Mathlib

/-!
# Lib/Batching — sending a list in requests that are not too long

A list is cut greedily into batches that fit a known limit, and a batch that the other side refuses
as too large is halved and sent again.  Whatever the other side answers, sending ends
(`push_spec`): the requests that succeed carry the whole list, each element once and in order, or
an element is too long by itself.
-/

namespace Batching

open List

/-- A request, and what came of it. -/
structure Exchange (E ε A : Type) where
  entries : List E
  answer : Except ε A

/-- How elements are sent, to whom, and how long a request with them is. -/
structure Gateway (E ε A : Type) [AddMonoid A] where
  emptyBodyBytes : ℕ
  entryBodyBytes : E → ℕ
  separatorBytes : ℕ
  /-- What is thrown for an element that does not fit the limit. -/
  tooLarge : ℕ → E → ε
  isTooLarge : ε → Bool
  merge : List A → A
  merge_eq_sum : ∀ acks, merge acks = acks.sum
  /-- The other side, which may go by everything before. -/
  answer : List (Exchange E ε A) → List E → Except ε A

variable {E ε A : Type} [AddMonoid A] (g : Gateway E ε A)

/-- The loop of a partition. -/
def partitionFrom (maxBodyBytes : ℕ) (currentBatch : List E) (currentBodyBytes : ℕ) :
    List E → Except ε (List (List E))
  | [] => .ok (if 0 < currentBatch.length then [currentBatch] else [])
  | entry :: entries =>
    let separatorBytes := if 0 < currentBatch.length then g.separatorBytes else 0
    let nextBodyBytes := currentBodyBytes + separatorBytes + g.entryBodyBytes entry
    if g.emptyBodyBytes + g.entryBodyBytes entry > maxBodyBytes then
      .error (g.tooLarge maxBodyBytes entry)
    else if nextBodyBytes > maxBodyBytes then
      (partitionFrom maxBodyBytes [entry] (g.emptyBodyBytes + g.entryBodyBytes entry) entries).map
        fun batches => currentBatch :: batches
    else partitionFrom maxBodyBytes (currentBatch ++ [entry]) nextBodyBytes entries

def partition (maxBodyBytes : ℕ) (entries : List E) : Except ε (List (List E)) :=
  partitionFrom g maxBodyBytes [] g.emptyBodyBytes entries

/-- From the requests so far to the requests after it and what comes of it; `none` if it does not
end. -/
abbrev Sending (E ε A B : Type) :=
  List (Exchange E ε A) → Option (List (Exchange E ε A) × Except ε B)

/-- Batches one after the other, up to one that fails. -/
def sendEach (send : List E → Sending E ε A A) : List (List E) → Sending E ε A (List A)
  | [], log => some (log, .ok [])
  | batch :: batches, log =>
    match send batch log with
    | none => none
    | some (log, .error e) => some (log, .error e)
    | some (log, .ok ack) =>
      match sendEach send batches log with
      | none => none
      | some (log, .error e) => some (log, .error e)
      | some (log, .ok acks) => some (log, .ok (ack :: acks))

/-- Batches, for one answer. -/
def sendMerged (send : List E → Sending E ε A A) (batches : List (List E)) : Sending E ε A A :=
  fun log => (sendEach send batches log).map fun sent => (sent.1, sent.2.map g.merge)

/-- A list, in batches if there is a limit. -/
def pushWith (send : List E → Sending E ε A A) (maxBodyBytes : Option ℕ) (entries : List E) :
    Sending E ε A A := fun log =>
  if entries.length = 0 then some (log, .ok (g.merge []))
  else
    match maxBodyBytes with
    | none => send entries log
    | some maxBodyBytes =>
      match partition g maxBodyBytes entries with
      | .error e => some (log, .error e)
      | .ok batches => sendMerged g send batches log

/-- A request, halved if it is refused as too large; `none` if that takes too many halvings. -/
def sendBatch (maxBodyBytes : Option ℕ) : ℕ → List E → Sending E ε A A
  | 0, _, _ => none
  | fuel + 1, entries, log =>
    let answer := g.answer log entries
    let log := log ++ [⟨entries, answer⟩]
    match answer with
    | .ok ack => some (log, .ok ack)
    | .error e =>
      if g.isTooLarge e && entries.length > 1 then
        let midpoint := (entries.length + 1) / 2
        sendMerged g (pushWith g (sendBatch maxBodyBytes fuel) maxBodyBytes)
          [entries.take midpoint, entries.drop midpoint] log
      else some (log, .error e)

def push (maxBodyBytes : Option ℕ) (fuel : ℕ) (entries : List E) : Sending E ε A A :=
  pushWith g (sendBatch g maxBodyBytes fuel) maxBodyBytes entries

/-! ## Lengths -/

/-- The length of a request, as partitions count it. -/
def bodyBytes : List E → ℕ
  | [] => g.emptyBodyBytes
  | entry :: entries => g.emptyBodyBytes + g.entryBodyBytes entry
    + (entries.map fun entry => g.separatorBytes + g.entryBodyBytes entry).sum

theorem bodyBytes_append_singleton (entries : List E) (entry : E) :
    bodyBytes g (entries ++ [entry]) = bodyBytes g entries
      + (if 0 < entries.length then g.separatorBytes else 0) + g.entryBodyBytes entry := by
  cases entries with
  | nil =>
    rw [nil_append, bodyBytes, bodyBytes, length_nil, if_neg (Nat.lt_irrefl 0)]
    rfl
  | cons first entries =>
    rw [cons_append, bodyBytes, bodyBytes, map_append, sum_append,
      map_singleton, sum_singleton, length_cons, if_pos (Nat.succ_pos _)]
    omega

/-- Whether a request keeps a limit. -/
def Fits (maxBodyBytes : Option ℕ) (entries : List E) : Prop :=
  ∀ limit, maxBodyBytes = some limit → bodyBytes g entries ≤ limit

/-- An element that does not fit a limit by itself. -/
def Exceeds (maxBodyBytes : Option ℕ) (entry : E) : Prop :=
  ∃ limit, maxBodyBytes = some limit ∧ limit < bodyBytes g [entry]

variable {g}

theorem partitionFrom_spec {limit : ℕ} (entries currentBatch : List E)
    (hcurrent : 0 < currentBatch.length → bodyBytes g currentBatch ≤ limit) :
    match partitionFrom g limit currentBatch (bodyBytes g currentBatch) entries with
    | .error _ => ∃ entry ∈ entries, Exceeds g (some limit) entry
    | .ok batches => batches.flatten = currentBatch ++ entries
        ∧ ∀ batch ∈ batches, 0 < batch.length ∧ bodyBytes g batch ≤ limit := by
  induction entries generalizing currentBatch with
  | nil =>
    rw [partitionFrom]
    split_ifs with hlength
    · refine ⟨by simp, fun batch hbatch => ?_⟩
      obtain rfl := mem_singleton.mp hbatch
      exact ⟨hlength, hcurrent hlength⟩
    · obtain rfl := eq_nil_of_length_eq_zero (Nat.eq_zero_of_not_pos hlength)
      exact ⟨rfl, nofun⟩
  | cons entry entries ih =>
    have hone : bodyBytes g [entry] = g.emptyBodyBytes + g.entryBodyBytes entry := rfl
    rw [partitionFrom, ← hone, ← bodyBytes_append_singleton]
    by_cases hexceeds : bodyBytes g [entry] > limit
    · rw [if_pos hexceeds]
      exact ⟨entry, mem_cons_self, limit, rfl, hexceeds⟩
    rw [if_neg hexceeds]
    split_ifs with hnext
    · have hlength : 0 < currentBatch.length := by
        refine Nat.pos_of_ne_zero fun hzero => hexceeds ?_
        obtain rfl := eq_nil_of_length_eq_zero hzero
        exact hnext
      have hrest := ih _ fun _ => Nat.le_of_not_lt hexceeds
      revert hrest
      cases partitionFrom g limit [entry] (bodyBytes g [entry]) entries with
      | error e => exact fun ⟨entry', hentry, h⟩ => ⟨entry', mem_cons_of_mem _ hentry, h⟩
      | ok batches =>
        rintro ⟨hflatten, hbatches⟩
        refine ⟨?_, forall_mem_cons.mpr ⟨⟨hlength, hcurrent hlength⟩, hbatches⟩⟩
        rw [flatten_cons, hflatten, singleton_append]
    · have hrest := ih _ fun _ => Nat.le_of_not_lt hnext
      revert hrest
      cases partitionFrom g limit (currentBatch ++ [entry])
          (bodyBytes g (currentBatch ++ [entry])) entries with
      | error e => exact fun ⟨entry', hentry, h⟩ => ⟨entry', mem_cons_of_mem _ hentry, h⟩
      | ok batches =>
        rintro ⟨hflatten, hbatches⟩
        exact ⟨by rw [hflatten, append_assoc, singleton_append], hbatches⟩

/-- **Partitions**: batches that fit and make up the list, or an element that does not fit. -/
theorem partition_spec (limit : ℕ) (entries : List E) :
    match partition g limit entries with
    | .error _ => ∃ entry ∈ entries, Exceeds g (some limit) entry
    | .ok batches => batches.flatten = entries
        ∧ ∀ batch ∈ batches, 0 < batch.length ∧ bodyBytes g batch ≤ limit :=
  partitionFrom_spec entries [] fun h => absurd h (Nat.lt_irrefl 0)

/-! ## Outcomes -/

/-- The requests that succeeded, with their answers. -/
def successes (log : List (Exchange E ε A)) : List (List E × A) :=
  log.filterMap fun exchange => exchange.answer.toOption.map fun ack => (exchange.entries, ack)

variable (g)

/-- A log of what the other side answered. -/
def Transcript (log : List (Exchange E ε A)) : Prop :=
  ∀ before exchange, before ++ [exchange] <+: log →
    exchange.answer = g.answer before exchange.entries

/-- An element that is too long by itself, or was refused as such. -/
def Unsendable (maxBodyBytes : Option ℕ) (exchanges : List (Exchange E ε A)) (entry : E) : Prop :=
  Exceeds g maxBodyBytes entry ∨ ∃ exchange ∈ exchanges, exchange.entries = [entry]
    ∧ ∃ e, exchange.answer = .error e ∧ g.isTooLarge e = true

/-- **What sending a list comes to**, in the requests that it took. -/
structure Outcome (maxBodyBytes : Option ℕ) (entries : List E)
    (exchanges : List (Exchange E ε A)) (result : Except ε A) : Prop where
  fits : ∀ exchange ∈ exchanges, Fits g maxBodyBytes exchange.entries
  complete : ∀ ack, result = .ok ack → (successes exchanges).flatMap Prod.fst = entries
    ∧ ack = g.merge ((successes exchanges).map Prod.snd)
  justified : ∀ e, result = .error e →
    (∃ entry ∈ entries, Unsendable g maxBodyBytes exchanges entry)
      ∨ ∃ exchange ∈ exchanges, exchange.answer = .error e ∧ g.isTooLarge e = false

/-- Sending ends, whatever was sent before, in such an outcome. -/
def Meets (maxBodyBytes : Option ℕ) (entries : List E) (sending : Sending E ε A A) : Prop :=
  ∀ log, Transcript g log → ∃ exchanges result, sending log = some (log ++ exchanges, result)
    ∧ Transcript g (log ++ exchanges) ∧ Outcome g maxBodyBytes entries exchanges result

variable {g}

theorem Transcript.snoc {log : List (Exchange E ε A)} (h : Transcript g log) (entries : List E) :
    Transcript g (log ++ [⟨entries, g.answer log entries⟩]) := by
  intro before exchange hprefix
  rcases prefix_concat_iff.mp hprefix with heq | hlog
  · obtain ⟨rfl, hlast⟩ := append_inj' heq rfl
    obtain rfl := singleton_inj.mp hlast
    rfl
  · exact h before exchange hlog

theorem Unsendable.mono {m : Option ℕ} {exchanges exchanges' : List (Exchange E ε A)} {entry : E}
    (h : Unsendable g m exchanges entry) (hsub : exchanges ⊆ exchanges') :
    Unsendable g m exchanges' entry :=
  h.imp_right fun ⟨exchange, hmem, halone⟩ => ⟨exchange, hsub hmem, halone⟩

namespace Outcome

variable {m : Option ℕ} {entries entries' : List E} {exchanges exchanges' : List (Exchange E ε A)}

/-- A failure is one of a longer list. -/
theorem failed {e : ε} (h : Outcome g m entries exchanges (.error e))
    (hsub : entries ⊆ entries') : Outcome g m entries' exchanges (.error e) where
  fits := h.fits
  complete := fun _ hok => nomatch hok
  justified := fun e' herror => (h.justified e' herror).imp_left
    fun ⟨entry, hentry, hunsendable⟩ => ⟨entry, hsub hentry, hunsendable⟩

/-- A request that succeeds. -/
theorem sent {ack : A}
    (hfits : Fits g m entries) : Outcome g m entries [⟨entries, .ok ack⟩] (.ok ack) where
  fits := fun exchange hmem => by
    obtain rfl := mem_singleton.mp hmem
    exact hfits
  complete := fun ack' hok => by
    obtain rfl := Except.ok.inj hok
    exact ⟨append_nil entries, by rw [g.merge_eq_sum]; exact (add_zero ack).symm⟩
  justified := fun _ herror => nomatch herror

/-- A request that fails and is not sent again. -/
theorem refused {e : ε} (hpos : 0 < entries.length) (hfits : Fits g m entries)
    (honce : ¬ (g.isTooLarge e && entries.length > 1) = true) :
    Outcome g m entries [⟨entries, .error e⟩] (.error e) where
  fits := fun exchange hmem => by
    obtain rfl := mem_singleton.mp hmem
    exact hfits
  complete := fun _ hok => nomatch hok
  justified := fun e' herror => by
    obtain rfl := Except.error.inj herror
    by_cases htoo : g.isTooLarge e = true
    · have hone : entries.length = 1 := by
        rw [htoo, Bool.true_and, decide_eq_true_eq] at honce
        omega
      obtain ⟨entry, rfl⟩ := length_eq_one_iff.mp hone
      exact .inl ⟨entry, mem_singleton_self entry,
        .inr ⟨_, mem_singleton_self _, rfl, e, rfl, htoo⟩⟩
    · exact .inr ⟨_, mem_singleton_self _, rfl, Bool.eq_false_iff.mpr htoo⟩

/-- Requests, and behind them those for the rest of the list. -/
theorem append {ack : A}
    {result : Except ε A} (h : Outcome g m entries exchanges (.ok ack))
    (h' : Outcome g m entries' exchanges' result) :
    Outcome g m (entries ++ entries') (exchanges ++ exchanges') (result.map (ack + ·)) := by
  obtain ⟨hentries, hack⟩ := h.complete ack rfl
  refine ⟨fun exchange hmem => ?_, fun ack' hok => ?_, fun e herror => ?_⟩
  · exact (mem_append.mp hmem).elim (h.fits exchange) (h'.fits exchange)
  · cases result with
    | error e => exact nomatch hok
    | ok last =>
      obtain rfl := Except.ok.inj hok
      obtain ⟨hentries', hlast⟩ := h'.complete last rfl
      have hsuccesses : successes (exchanges ++ exchanges')
          = successes exchanges ++ successes exchanges' := filterMap_append
      rw [hsuccesses, flatMap_append, hentries, hentries', map_append, g.merge_eq_sum,
        sum_append, ← g.merge_eq_sum, ← g.merge_eq_sum, ← hack, ← hlast]
      exact ⟨rfl, rfl⟩
  · cases result with
    | ok last => exact nomatch herror
    | error e' =>
      obtain rfl := Except.error.inj herror
      refine (h'.justified e' rfl).imp ?_ ?_
      · rintro ⟨entry, hentry, hunsendable⟩
        exact ⟨entry, mem_append_right _ hentry, hunsendable.mono (subset_append_right _ _)⟩
      · rintro ⟨exchange, hmem, hfailed⟩
        exact ⟨exchange, mem_append_right _ hmem, hfailed⟩

/-- A request that was refused comes first. -/
theorem retried {refused : List E} {e : ε} {result : Except ε A} (hfits : Fits g m refused)
    (h : Outcome g m entries exchanges result) :
    Outcome g m entries (⟨refused, .error e⟩ :: exchanges) result where
  fits := forall_mem_cons.mpr ⟨hfits, h.fits⟩
  complete := h.complete
  justified := fun e' herror => (h.justified e' herror).imp
    (fun ⟨entry, hentry, hunsendable⟩ =>
      ⟨entry, hentry, hunsendable.mono (subset_cons_self _ _)⟩)
    (fun ⟨exchange, hmem, hfailed⟩ => ⟨exchange, mem_cons_of_mem _ hmem, hfailed⟩)

end Outcome

/-! ## Sending -/

section

variable {m : Option ℕ}

theorem sendMerged_of_error {send : List E → Sending E ε A A} {batch : List E}
    {log log' : List (Exchange E ε A)} {e : ε} (h : send batch log = some (log', .error e))
    (batches : List (List E)) :
    sendMerged g send (batch :: batches) log = some (log', .error e) := by
  rw [sendMerged, sendEach, h]
  rfl

theorem sendMerged_of_ok {send : List E → Sending E ε A A} {batch : List E}
    {log log' : List (Exchange E ε A)} {ack : A} (h : send batch log = some (log', .ok ack))
    (batches : List (List E)) :
    sendMerged g send (batch :: batches) log
      = (sendMerged g send batches log').map fun sent => (sent.1, sent.2.map (ack + ·)) := by
  rw [sendMerged, sendEach, h, sendMerged, Option.map_map]
  dsimp only
  cases sendEach send batches log' with
  | none => rfl
  | some sent =>
    obtain ⟨log'', result⟩ := sent
    cases result with
    | error e => rfl
    | ok acks =>
      have hcons : g.merge (ack :: acks) = ack + g.merge acks := by
        rw [g.merge_eq_sum, g.merge_eq_sum, sum_cons]
      exact congrArg (fun merged => some (log'', Except.ok merged)) hcons

/-- **Batches**, each of which ends in an outcome of its own. -/
theorem sendMerged_spec (send : List E → Sending E ε A A) (batches : List (List E))
    (hsend : ∀ batch ∈ batches, Meets g m batch (send batch)) :
    Meets g m batches.flatten (sendMerged g send batches) := by
  induction batches with
  | nil =>
    refine fun log hlog => ⟨[], .ok (g.merge []), ?_, ?_, ?_⟩
    · rw [append_nil]
      rfl
    · rw [append_nil]
      exact hlog
    · exact ⟨nofun,
        fun ack hok => ⟨rfl, (Except.ok.inj hok).symm⟩, fun _ herror => nomatch herror⟩
  | cons batch batches ih =>
    intro log hlog
    obtain ⟨exchanges, result, hfirst, htranscript, houtcome⟩ :=
      hsend batch mem_cons_self log hlog
    rw [flatten_cons]
    cases result with
    | error e => exact ⟨exchanges, .error e, sendMerged_of_error hfirst batches, htranscript,
        houtcome.failed (subset_append_left _ _)⟩
    | ok ack =>
      obtain ⟨exchanges', result', hrest, htranscript', houtcome'⟩ :=
        ih (fun batch' hmem => hsend batch' (mem_cons_of_mem _ hmem)) _ htranscript
      rw [append_assoc] at hrest htranscript'
      refine ⟨exchanges ++ exchanges', result'.map (ack + ·), ?_, htranscript',
        houtcome.append houtcome'⟩
      rw [sendMerged_of_ok hfirst, hrest]
      rfl

/-- A list ends in an outcome if its batches do. -/
theorem pushWith_spec {send : List E → Sending E ε A A} {n : ℕ}
    (hsend : ∀ batch, 0 < batch.length → batch.length ≤ n → Fits g m batch →
      Meets g m batch (send batch)) {entries : List E} (hlength : entries.length ≤ n) :
    Meets g m entries (pushWith g send m entries) := by
  by_cases hempty : entries.length = 0
  · obtain rfl := eq_nil_of_length_eq_zero hempty
    exact sendMerged_spec send [] nofun
  have hpos := Nat.pos_of_ne_zero hempty
  cases m with
  | none =>
    intro log hlog
    rw [pushWith, if_neg hempty]
    exact hsend entries hpos hlength (fun _ h => nomatch h) log hlog
  | some limit =>
    have hpartition := partition_spec (g := g) limit entries
    intro log hlog
    rw [pushWith, if_neg hempty]
    revert hpartition
    cases partition g limit entries with
    | error e =>
      rintro ⟨entry, hentry, hexceeds⟩
      refine ⟨[], .error e, ?_, ?_, ?_⟩
      · rw [append_nil]
      · rw [append_nil]
        exact hlog
      · exact ⟨nofun, (fun _ hok => nomatch hok),
          fun _ _ => .inl ⟨entry, hentry, .inl hexceeds⟩⟩
    | ok batches =>
      rintro ⟨hflatten, hbatches⟩
      have hmerged := sendMerged_spec send batches fun batch hmem =>
        hsend batch (hbatches batch hmem).1
          (Nat.le_trans (hflatten ▸ (sublist_flatten_of_mem hmem).length_le) hlength)
          (fun limit' h => Option.some.inj h ▸ (hbatches batch hmem).2)
      rw [hflatten] at hmerged
      exact hmerged log hlog

/-- **A batch** that fits: as many halvings as it has elements suffice. -/
theorem sendBatch_spec (fuel : ℕ) {entries : List E} (hpos : 0 < entries.length)
    (hlength : entries.length ≤ fuel) (hfits : Fits g m entries) :
    Meets g m entries (sendBatch g m fuel entries) := by
  induction fuel generalizing entries with
  | zero => exact absurd hlength (Nat.not_le_of_lt hpos)
  | succ fuel ih =>
    intro log hlog
    have hlog' := hlog.snoc entries
    rw [sendBatch]
    dsimp only
    revert hlog'
    cases g.answer log entries with
    | ok ack => exact fun hlog' => ⟨_, .ok ack, rfl, hlog', .sent hfits⟩
    | error e =>
      intro hlog'
      dsimp only
      split_ifs with hretry
      · rw [Bool.and_eq_true, decide_eq_true_eq] at hretry
        have hhalves : ∀ half, half.length ≤ fuel →
            Meets g m half (pushWith g (sendBatch g m fuel) m half) :=
          fun half => pushWith_spec fun batch hpos hlength hfits => ih hpos hlength hfits
        have hmerged := sendMerged_spec _
          [entries.take ((entries.length + 1) / 2), entries.drop ((entries.length + 1) / 2)]
          fun half hhalf => hhalves half (by
            rcases mem_pair.mp hhalf with rfl | rfl
            · rw [length_take]
              omega
            · rw [length_drop]
              omega)
        rw [flatten_cons, flatten_cons, flatten_nil, append_nil, take_append_drop] at hmerged
        obtain ⟨exchanges, result, hsent, htranscript, houtcome⟩ := hmerged _ hlog'
        refine ⟨⟨entries, .error e⟩ :: exchanges, result, ?_, ?_, houtcome.retried hfits⟩
        · rw [hsent, append_assoc]
          rfl
        · rw [append_cons]
          exact htranscript
      · exact ⟨_, .error e, rfl, hlog', .refused hpos hfits hretry⟩

/-- **Sending a list ends**, and completely unless an element cannot be sent. -/
theorem push_spec {entries : List E} {fuel : ℕ} (hfuel : entries.length ≤ fuel) :
    Meets g m entries (push g m fuel entries) :=
  pushWith_spec (fun _ hpos hlength hfits => sendBatch_spec fuel hpos hlength hfits) hfuel

end

end Batching
