import Mathlib
import StackMachine.Proofs.CompileErrors
/-!
# The label table keeps the first binding of each name

A caller holds one label table and binds names in it, one call after another. A call for a
new name is kept, after every binding made before it. A call for a name already bound is
refused: it reports the binding that stays and leaves the table as it was. Names are compared
as they are written, so `loop` and `Loop` are two names.

`LabelTable.insertInPlace` is one such call and `LabelTable.insertAll` a list of them, from any
table. The one-call lemmas say what a call does to the lookup, to the entries and to the names;
the run lemmas follow by induction on the calls. `insertAll_keeps_first_bindings`: from the
empty table, a call is refused exactly when an earlier call of its name was kept, and then it
reports that call's binding; a refused call leaves the table as it was; the table left binds
a name exactly to the binding of its kept call, has one entry per distinct name, and lists
the first call of each name, in the order of the calls.
-/

namespace StackMachine

namespace LabelTable

variable {t : LabelTable} {n m : String} {d first : LabelDef}

@[simp] theorem entries_empty : empty.entries = [] := rfl

/-- A name is bound exactly when it is among the table's names. -/
theorem get?_isSome_iff : (t.get? n).isSome ↔ n ∈ t.entries.map Prod.fst := by
  simp [get?, List.find?_isSome]

/-! ## One call -/

/-- `insert` as a caller that holds the table sees it: the call's outcome, and the table it
holds afterwards, which is the same table when the binding is refused. -/
def insertInPlace (t : LabelTable) (name : String) (d : LabelDef) :
    Except LabelDef Unit × LabelTable :=
  ((t.insert name d).map fun _ => (), (t.insert name d).toOption.getD t)

theorem insertInPlace_of_get?_some (h : t.get? n = some first) :
    t.insertInPlace n d = (.error first, t) := by
  simp [insertInPlace, insert, h, Except.map, Except.toOption]

theorem insertInPlace_of_get?_none (h : t.get? n = none) :
    t.insertInPlace n d = (.ok (), ⟨t.entries ++ [(n, d)]⟩) := by
  simp [insertInPlace, Survey.insert_of_get?_none h, Except.map, Except.toOption]

theorem insertInPlace_fst_eq_error :
    (t.insertInPlace n d).1 = .error first ↔ t.get? n = some first := by
  rcases h : t.get? n with _ | f
  · simp [insertInPlace_of_get?_none h]
  · simp [insertInPlace_of_get?_some h]

theorem insertInPlace_fst_eq_ok : (t.insertInPlace n d).1 = .ok () ↔ t.get? n = none := by
  rcases h : t.get? n with _ | f
  · simp [insertInPlace_of_get?_none h]
  · simp [insertInPlace_of_get?_some h]

/-- After a call, a name is bound as before, or else to the call's binding when the call is
for that name. -/
theorem get?_insertInPlace :
    (t.insertInPlace n d).2.get? m = (t.get? m).or (if n = m then some d else none) := by
  rcases h : t.get? n with _ | f
  · rw [insertInPlace_of_get?_none h, get?_append]
    by_cases hnm : n = m <;> simp [hnm]
  · rw [insertInPlace_of_get?_some h]
    by_cases hnm : n = m
    · subst hnm
      simp [h]
    · simp [hnm]

/-- A call keeps the table's names distinct. -/
theorem nodup_insertInPlace (hd : (t.entries.map Prod.fst).Nodup) :
    ((t.insertInPlace n d).2.entries.map Prod.fst).Nodup := by
  rcases h : t.get? n with _ | f
  · have hn : n ∉ t.entries.map Prod.fst := by
      rw [← get?_isSome_iff, h]
      simp
    rw [insertInPlace_of_get?_none h, List.map_append, List.map_singleton,
      ← List.concat_eq_append, List.nodup_concat]
    exact ⟨hn, hd⟩
  · rwa [insertInPlace_of_get?_some h]

/-! ## A list of calls -/

/-- Makes the calls one after another on the table held: each call's outcome, in order, and
the table held at the end. -/
def insertAll (t : LabelTable) :
    List (String × LabelDef) → List (Except LabelDef Unit) × LabelTable
  | [] => ([], t)
  | c :: cs =>
    let r := t.insertInPlace c.1 c.2
    (r.1 :: (r.2.insertAll cs).1, (r.2.insertAll cs).2)

variable {cs ds : List (String × LabelDef)} {c : String × LabelDef} {i j : Nat}

@[simp] theorem length_insertAll (t : LabelTable) (cs : List (String × LabelDef)) :
    (t.insertAll cs).1.length = cs.length := by
  induction cs generalizing t with
  | nil => rfl
  | cons c cs ih => simp [insertAll, ih]

/-- The calls of `cs ++ ds` are those of `cs`, then those of `ds` on the table `cs` leaves. -/
theorem insertAll_append (t : LabelTable) (cs ds : List (String × LabelDef)) :
    t.insertAll (cs ++ ds) =
      ((t.insertAll cs).1 ++ ((t.insertAll cs).2.insertAll ds).1,
        ((t.insertAll cs).2.insertAll ds).2) := by
  induction cs generalizing t with
  | nil => rfl
  | cons c cs ih => simp [insertAll, ih]

/-- The outcomes of the first calls are the first outcomes. -/
theorem insertAll_take (t : LabelTable) (cs : List (String × LabelDef)) (i : Nat) :
    (t.insertAll (cs.take i)).1 = (t.insertAll cs).1.take i := by
  induction cs generalizing t i with
  | nil => simp [insertAll]
  | cons c cs ih =>
    cases i with
    | zero => simp [insertAll]
    | succ i => simp [insertAll, ih]

/-- One more call comes after the others. -/
theorem insertAll_concat (t : LabelTable) (cs : List (String × LabelDef))
    (c : String × LabelDef) :
    t.insertAll (cs ++ [c]) =
      ((t.insertAll cs).1 ++ [((t.insertAll cs).2.insertInPlace c.1 c.2).1],
        ((t.insertAll cs).2.insertInPlace c.1 c.2).2) := by
  simp [insertAll_append, insertAll]

/-- The outcome of a call is that of the same call on the table the calls before it leave. -/
theorem getElem?_insertAll (h : cs[i]? = some c) :
    (t.insertAll cs).1[i]? = some ((t.insertAll (cs.take i)).2.insertInPlace c.1 c.2).1 := by
  obtain ⟨hi, rfl⟩ := List.getElem?_eq_some_iff.1 h
  conv_lhs => rw [← List.take_append_drop i cs, List.drop_eq_getElem_cons hi, insertAll_append]
  rw [List.getElem?_append_right (by simp)]
  simp [insertAll, Nat.min_eq_left hi.le]

/-- A refused call leaves the table as it was. -/
theorem insertAll_take_succ_of_error (h : (t.insertAll cs).1[i]? = some (.error first)) :
    (t.insertAll (cs.take (i + 1))).2 = (t.insertAll (cs.take i)).2 := by
  have hi : i < cs.length := by
    simpa using (List.getElem?_eq_some_iff.1 h).1
  rw [getElem?_insertAll (List.getElem?_eq_getElem hi), Option.some_inj,
    insertInPlace_fst_eq_error] at h
  rw [List.take_add_one, List.getElem?_eq_getElem hi, Option.toList_some, insertAll_append]
  simp [insertAll, insertInPlace_of_get?_some h]

/-- After the calls, a name is bound as before, or else to the binding of its first call. -/
theorem get?_insertAll (t : LabelTable) (cs : List (String × LabelDef)) (n : String) :
    (t.insertAll cs).2.get? n = (t.get? n).or ((cs.find? (·.1 == n)).map Prod.snd) := by
  induction cs generalizing t with
  | nil => simp [insertAll]
  | cons c cs ih =>
    simp only [insertAll, ih, get?_insertInPlace, Option.or_assoc]
    by_cases h : c.1 = n
    · simp [h]
    · simp [h, List.find?_cons_of_neg]

/-- The calls keep the table's names distinct. -/
theorem nodup_insertAll (t : LabelTable) (cs : List (String × LabelDef))
    (hd : (t.entries.map Prod.fst).Nodup) : ((t.insertAll cs).2.entries.map Prod.fst).Nodup := by
  induction cs generalizing t with
  | nil => exact hd
  | cons c cs ih => exact ih _ (nodup_insertInPlace hd)

/-- The calls append, in order, the first call of each name the table does not bind yet. -/
theorem entries_insertAll (t : LabelTable) (cs : List (String × LabelDef)) :
    (t.insertAll cs).2.entries =
      t.entries ++ (cs.filter fun c => (t.get? c.1).isNone).eraseDupsBy fun a b => a.1 == b.1 := by
  induction cs generalizing t with
  | nil => simp [insertAll]
  | cons c cs ih =>
    simp only [insertAll, ih]
    rcases h : t.get? c.1 with _ | f
    · rw [insertInPlace_of_get?_none h, List.filter_cons_of_pos (by simp [h]),
        List.eraseDupsBy_cons, List.filter_filter, List.append_assoc, List.singleton_append]
      congr 3
      apply List.filter_congr
      intro x _
      rw [Bool.eq_iff_iff, Option.isNone_iff_eq_none, get?_append_eq_none]
      simp only [List.mem_singleton, forall_eq, Bool.and_eq_true, decide_eq_true_eq,
        beq_eq_false_iff_ne, Option.isNone_iff_eq_none, ne_eq]
      rw [and_comm, @eq_comm _ c.1]
    · rw [insertInPlace_of_get?_some h, List.filter_cons_of_neg (by simp [h])]

/-! ## Calls from the empty table -/

/-- A pair is in the zip of two lists exactly when both stand at one position. -/
theorem mem_zip_iff_getElem? {α β : Type} {l : List α} {l' : List β} {x : α} {y : β} :
    (x, y) ∈ l.zip l' ↔ ∃ j : Nat, l[j]? = some x ∧ l'[j]? = some y := by
  simp [List.mem_iff_getElem?, List.getElem?_zip_eq_some]

/-- From the empty table, the calls bind a name to a binding exactly when the call for that
binding stands, kept, among the calls paired with their outcomes. -/
theorem get?_insertAll_empty_eq_some_iff_mem_zip (cs : List (String × LabelDef)) (n : String)
    (d : LabelDef) :
    (empty.insertAll cs).2.get? n = some d ↔
      ((n, d), .ok ()) ∈ cs.zip (empty.insertAll cs).1 := by
  -- induction from the last call, whose outcome depends on the table the others leave
  induction cs using List.reverseRecOn with
  | nil => simp [insertAll]
  | append_singleton cs c ih =>
    rw [insertAll_concat, List.zip_append (by simp), List.mem_append, ← ih, get?_insertInPlace]
    simp only [List.zip_cons_cons, List.zip_nil_right, List.mem_singleton, Prod.mk.injEq]
    obtain ⟨m, e⟩ := c
    generalize (empty.insertAll cs).2 = T
    rw [@eq_comm _ (Except.ok ()), insertInPlace_fst_eq_ok]
    rcases h : T.get? n with _ | f
    · by_cases hm : m = n
      · subst hm
        simp [h, eq_comm]
      · simp [hm, Ne.symm hm]
    · by_cases hm : m = n
      · subst hm
        simp [h]
      · simp [hm, Ne.symm hm]

/-- From the empty table, the calls bind a name to a binding exactly when some call made that
binding and was kept. -/
theorem get?_insertAll_empty_eq_some_iff :
    (empty.insertAll cs).2.get? n = some d ↔
      ∃ j : Nat, cs[j]? = some (n, d) ∧ (empty.insertAll cs).1[j]? = some (.ok ()) := by
  rw [get?_insertAll_empty_eq_some_iff_mem_zip, mem_zip_iff_getElem?]

/-- A call is refused exactly when an earlier call of its name was kept, and it then reports
that call's binding. -/
theorem insertAll_empty_eq_error_iff (h : cs[i]? = some c) :
    (empty.insertAll cs).1[i]? = some (.error first) ↔
      ∃ j < i, cs[j]? = some (c.1, first) ∧ (empty.insertAll cs).1[j]? = some (.ok ()) := by
  rw [getElem?_insertAll h, Option.some_inj, insertInPlace_fst_eq_error,
    get?_insertAll_empty_eq_some_iff, insertAll_take]
  simp only [List.getElem?_take, Option.ite_none_right_eq_some]
  constructor
  · rintro ⟨j, ⟨hj, hc⟩, -, hr⟩
    exact ⟨j, hj, hc, hr⟩
  · rintro ⟨j, hj, hc, hr⟩
    exact ⟨j, ⟨hj, hc⟩, hj, hr⟩

/-- From the empty table, the calls leave one entry per distinct name. -/
theorem size_insertAll_empty (cs : List (String × LabelDef)) :
    (empty.insertAll cs).2.size = (cs.map Prod.fst).toFinset.card := by
  have hnd := nodup_insertAll empty cs List.nodup_nil
  have hnames :
      ((empty.insertAll cs).2.entries.map Prod.fst).toFinset = (cs.map Prod.fst).toFinset := by
    ext n
    rw [List.mem_toFinset, List.mem_toFinset, ← get?_isSome_iff, get?_insertAll]
    simp [List.find?_isSome]
  calc (empty.insertAll cs).2.size
      = ((empty.insertAll cs).2.entries.map Prod.fst).length := by simp [size]
    _ = ((empty.insertAll cs).2.entries.map Prod.fst).toFinset.card :=
      (List.toFinset_card_of_nodup hnd).symm
    _ = (cs.map Prod.fst).toFinset.card := by rw [hnames]

/-- From the empty table, the calls leave the first call of each name, in order. -/
theorem entries_insertAll_empty (cs : List (String × LabelDef)) :
    (empty.insertAll cs).2.entries = cs.eraseDupsBy fun a b => a.1 == b.1 := by
  rw [entries_insertAll]
  simp

/-- The label table is a map that keeps the first binding of each name and the order of first
bindings. Making calls from the empty table, each call has an outcome; a call is refused
exactly when an earlier call of its name was kept, and it then reports that call's binding; a
refused call leaves the table as it was. The table left binds a name exactly to the binding of
its kept call, has as many entries as there are distinct names, and lists the first call of
each name, in the order of the calls. -/
theorem insertAll_keeps_first_bindings (cs : List (String × LabelDef)) :
    let rs := (empty.insertAll cs).1
    let t := (empty.insertAll cs).2
    rs.length = cs.length ∧
    (∀ (i : Nat) (c : String × LabelDef) (first : LabelDef), cs[i]? = some c →
      (rs[i]? = some (.error first) ↔
        ∃ j < i, cs[j]? = some (c.1, first) ∧ rs[j]? = some (.ok ()))) ∧
    (∀ (i : Nat) (first : LabelDef), rs[i]? = some (.error first) →
      (empty.insertAll (cs.take (i + 1))).2 = (empty.insertAll (cs.take i)).2) ∧
    (∀ (n : String) (d : LabelDef), t.get? n = some d ↔
      ∃ j : Nat, cs[j]? = some (n, d) ∧ rs[j]? = some (.ok ())) ∧
    t.size = (cs.map Prod.fst).toFinset.card ∧
    t.entries = cs.eraseDupsBy fun a b => a.1 == b.1 :=
  ⟨length_insertAll empty cs, fun _ _ _ h => insertAll_empty_eq_error_iff h,
    fun _ _ h => insertAll_take_succ_of_error h, fun _ _ => get?_insertAll_empty_eq_some_iff,
    size_insertAll_empty cs, entries_insertAll_empty cs⟩

/-- `loop`, `Loop` and `loop` again: names differ by case, so the third call is the one refused,
reporting the first call's binding; it leaves the table as it was, with two names in the
order they were bound. -/
theorem insertAll_refuses_second_loop :
    let cs : List (String × LabelDef) := [("loop", ⟨5, 1⟩), ("Loop", ⟨9, 2⟩), ("loop", ⟨17, 4⟩)]
    (empty.insertAll cs).1[2]? = some (.error ⟨5, 1⟩) ∧
      (empty.insertAll (cs.take 3)).2 = (empty.insertAll (cs.take 2)).2 ∧
      (empty.insertAll cs).2.get? "loop" = some ⟨5, 1⟩ ∧
      (empty.insertAll cs).2.size = 2 ∧
      (empty.insertAll cs).2.entries = [("loop", ⟨5, 1⟩), ("Loop", ⟨9, 2⟩)] := by
  intro cs
  have h := insertAll_keeps_first_bindings cs
  have hkept : (empty.insertAll cs).1[0]? = some (.ok ()) := by decide
  have hrefused : (empty.insertAll cs).1[2]? = some (.error ⟨5, 1⟩) :=
    (h.2.1 2 ("loop", ⟨17, 4⟩) _ rfl).2 ⟨0, by decide, rfl, hkept⟩
  refine ⟨hrefused, h.2.2.1 2 _ hrefused, (h.2.2.2.1 _ _).2 ⟨0, rfl, hkept⟩, ?_, ?_⟩
  · rw [h.2.2.2.2.1]
    decide
  · rw [h.2.2.2.2.2]
    decide

end LabelTable

end StackMachine
