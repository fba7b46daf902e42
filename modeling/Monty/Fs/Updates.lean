import Monty.Fs.Rename

/-!
# What the programs do to the entries

The programs that change the overlay state, as functions of the state: `put` and `drop` change one
entry, `putAll` and `dropAll` a list of them. A program either does just that or fails.

A rename's plan moves entries that it read from the state (`RenamePlan.Matches`), and all that it
takes out it puts something back for, so committing it is the same as making its replacements
(`RenamePlan.get_commit`).
-/

namespace Monty.Fs

open Fallible WeighedMap List AList
open Prod hiding map_map

namespace OverlayState

variable (r : Nat) (s : OverlayState)

/-- The state with another entry at a path. -/
def put (k : Key) (entry : OverlayEntry) : OverlayState :=
  ⟨s.entries.insert k entry, s.projectedUsage r k entry⟩

/-- The state without the entry at a path. -/
def drop (k : Key) : OverlayState := ⟨s.entries.erase k, s.memoryUsage - s.usageAt r k⟩

/-- The state with many entries put in, one after the other. -/
def putAll (changes : List (Key × OverlayEntry)) : OverlayState :=
  changes.foldl (fun s p => s.put r p.1 p.2) s

/-- The state without the entries at many paths. -/
def dropAll (keys : List Key) : OverlayState := keys.foldl (drop r) s

variable {r s} {k j : Key} {entry : OverlayEntry} {limit : Limit}

theorem get_put : (s.put r k entry).get j = if j = k then some entry else s.get j := by
  by_cases h : j = k
  · rw [if_pos h, h]
    exact lookup_insert s.entries
  · rw [if_neg h]
    exact lookup_insert_ne h

theorem get_drop : (s.drop r k).get j = if j = k then none else s.get j := by
  by_cases h : j = k
  · rw [if_pos h, h]
    exact lookup_erase k s.entries
  · rw [if_neg h]
    exact lookup_erase_ne h

theorem entries_putAll (s : OverlayState) (changes : List (Key × OverlayEntry)) :
    (s.putAll r changes).entries = insertAll s.entries changes := by
  induction changes generalizing s with
  | nil => rfl
  | cons p changes ih => exact ih _

theorem get_dropAll (s : OverlayState) (keys : List Key) :
    (s.dropAll r keys).get j = if j ∈ keys then none else s.get j := by
  induction keys generalizing s with
  | nil => rfl
  | cons k keys ih =>
    rw [show s.dropAll r (k :: keys) = (s.drop r k).dropAll r keys from rfl, ih, get_drop]
    by_cases h : j = k <;> simp [h]

/-- Entries that are put back anyway may be dropped first. -/
theorem get_putAll_dropAll {keys : List Key} {changes : List (Key × OverlayEntry)}
    (h : ∀ k ∈ keys, ∃ p ∈ changes, p.1 = k) :
    ((s.dropAll r keys).putAll r changes).get j = (s.putAll r changes).get j := by
  rw [OverlayState.get, OverlayState.get, entries_putAll, entries_putAll]
  refine lookup_insertAll_congr (fun a ha => ?_) j
  have hkeys : a ∉ keys := fun hmem => by
    obtain ⟨p, hp, rfl⟩ := h a hmem
    exact ha p hp rfl
  exact (get_dropAll s keys).trans (if_neg hkeys)

/-! ## The programs -/

theorem insertUnchecked_apply : insertUnchecked r k entry s = .ok ⟨⟩ (s.put r k entry) := rfl

theorem insert_apply : OverlayState.insert r k entry limit s =
    if limit.exceededBy (s.projectedUsage r k entry) then .error (.memoryUsageLimitExceeded limit) s
    else .ok ⟨⟩ (s.put r k entry) := by
  rw [OverlayState.insert, get_bind_apply]
  split_ifs <;> rfl

theorem remove_apply : remove r k s = .ok (s.get k) (s.drop r k) := by
  rw [remove, get_bind_apply]
  cases h : s.get k with
  | none =>
    have hk : k ∉ s.entries := AList.lookup_eq_none.mp h
    have hdrop : s.drop r k = s := by
      have hentries : s.entries.erase k = s.entries :=
        ext (kerase_of_notMem_keys (mt AList.mem_keys.mpr hk))
      have husage : s.usageAt r k = 0 := by
        rw [usageAt, weightAt, show s.entries.lookup k = none from h]
        rfl
      rw [drop, hentries, husage, Nat.sub_zero]
    rw [hdrop]
    rfl
  | some entry =>
    have husage : s.usageAt r k = entryMemoryUsage r k entry := by
      rw [usageAt, weightAt, show s.entries.lookup k = some entry from h]
      rfl
    rw [drop, husage]
    rfl

theorem appendFile_apply {data : Bytes} : appendFile k data limit s =
    match s.get k with
    | some (.file content) =>
      if limit.exceededBy (s.memoryUsage + data.length) then
        .error (.memoryUsageLimitExceeded limit) s
      else .ok true ⟨s.entries.insert k (.file (content ++ data)), s.memoryUsage + data.length⟩
    | _ => .ok false s := by
  rw [appendFile, get_bind_apply]
  cases s.get k with
  | none => rfl
  | some entry =>
    cases entry with
    | file content =>
      dsimp only
      split_ifs <;> rfl
    | _ => rfl

end OverlayState

open OverlayState

/-! ## Commits -/

theorem onState_apply_ok {α : Type} {x : EStateM MountError OverlayState α} {m : Mount} {a : α}
    {s : OverlayState} (h : x m.state = .ok a s) : onState x m = .ok a { m with state := s } := by
  rw [onState, zoom, h]

variable {entry : OverlayEntry}

theorem forM_insertUnchecked_apply {r : Nat} (keys : List Key) (m : Mount) :
    keys.forM (fun k => onState (insertUnchecked r k entry)) m =
      .ok ⟨⟩ { m with state := m.state.putAll r (keys.map fun k => (k, entry)) } := by
  induction keys generalizing m with
  | nil => rfl
  | cons k keys ih =>
    show (onState (insertUnchecked r k entry) >>= fun _ =>
      keys.forM fun k => onState (insertUnchecked r k entry)) m = _
    rw [bind_of_ok (onState_apply_ok insertUnchecked_apply), ih]
    rfl

variable {s : OverlayState} {plan : RenamePlan}

namespace RenamePlan

variable {r : Nat}

/-- The plan was made from this state. -/
structure Matches (plan : RenamePlan) (s : OverlayState) : Prop where
  entry : ∀ e, s.get plan.src = some e → plan.entry = e
  overlay : ∀ p ∈ plan.overlayMoves, s.get p.1 = some p.2.2
  nodup : (plan.src :: plan.overlayMoves.map Prod.fst).Nodup

theorem get_drop_of_moves {moves : List (Key × Key × OverlayEntry)} {old : Key}
    (hmoves : ∀ p ∈ moves, s.get p.1 = some p.2.2) (hold : old ∉ moves.map fst) :
    ∀ p ∈ moves, (s.drop r old).get p.1 = some p.2.2 := fun p hp => by
  rw [get_drop, if_neg fun h => hold (mem_map.mpr ⟨p, hp, h⟩)]
  exact hmoves p hp

theorem takeOut_apply {moves : List (Key × Key × OverlayEntry)}
    (hmoves : ∀ p ∈ moves, s.get p.1 = some p.2.2) (hnodup : (moves.map fst).Nodup) :
    takeOut r moves s = .ok moves (s.dropAll r (moves.map fst)) := by
  induction moves generalizing s with
  | nil => rfl
  | cons p moves ih =>
    rw [map_cons, nodup_cons] at hnodup
    have hrest := get_drop_of_moves (r := r) (forall_mem_cons.mp hmoves).2 hnodup.1
    rw [takeOut, bind_of_ok remove_apply, bind_of_ok (ih hrest hnodup.2), hmoves _ mem_cons_self]
    rfl

theorem putBack_apply (moves : List (Key × Key × OverlayEntry)) (s : OverlayState) :
    putBack r moves s = .ok ⟨⟩ (s.putAll r (replace moves)) := by
  induction moves generalizing s with
  | nil => rfl
  | cons p moves ih =>
    have hmove : (do
        insertUnchecked r p.1 .deleted
        insertUnchecked r p.2.1 p.2.2 : EStateM MountError OverlayState Unit) s =
        .ok ⟨⟩ ((s.put r p.1 .deleted).put r p.2.1 p.2.2) := rfl
    exact (bind_of_ok hmove).trans (ih _)

/-- **Committing a plan** takes out what moves and makes the replacements. -/
theorem commit_apply (hplan : plan.Matches s) : plan.commit r s = .ok ⟨⟩
    ((s.dropAll r (plan.src :: plan.overlayMoves.map fst)).putAll r plan.replacements) := by
  have hnodup := nodup_cons.mp hplan.nodup
  have hrest := get_drop_of_moves (r := r) hplan.overlay hnodup.1
  have hentry : (s.get plan.src).getD plan.entry = plan.entry := by
    cases h : s.get plan.src with
    | none => rfl
    | some e => exact (hplan.entry e h).symm
  rw [commit, bind_of_ok remove_apply, bind_of_ok (takeOut_apply hrest hnodup.2), putBack_apply,
    hentry]
  rfl

theorem get_commit (j : Key) :
    ((s.dropAll r (plan.src :: plan.overlayMoves.map fst)).putAll r plan.replacements).get j =
      (s.putAll r plan.replacements).get j := by
  refine get_putAll_dropAll fun k hk => ?_
  rcases mem_cons.mp hk with rfl | hk
  · exact ⟨(plan.src, .deleted), by simp [replacements, replace], rfl⟩
  · obtain ⟨p, hp, rfl⟩ := mem_map.mp hk
    refine ⟨(p.1, .deleted), ?_, rfl⟩
    simp only [replacements, replace, mem_flatMap]
    exact ⟨p, by simp [hp], by simp⟩

end RenamePlan

/-! ## Plans -/

variable {ctx : Context} {src dst : Key}

theorem mem_prefixIter {k : Key} {p : Key × OverlayEntry} :
    p ∈ s.prefixIter k ↔ s.get p.1 = some p.2 ∧ k <+: p.1 ∧ p.1 ≠ k := by
  simp only [prefixIter, mem_map, mem_filter, decide_eq_true_eq]
  constructor
  · rintro ⟨q, ⟨hq, hk⟩, rfl⟩
    exact ⟨AList.mem_lookup_iff.mpr hq, hk⟩
  · rintro ⟨hp, hk⟩
    exact ⟨⟨p.1, p.2⟩, ⟨AList.mem_lookup_iff.mp hp, hk⟩, rfl⟩

theorem nodup_prefixIter (s : OverlayState) (k : Key) : ((s.prefixIter k).map fst).Nodup := by
  have hkeys : ((s.entries.entries.filter fun p => k <+: p.1 ∧ p.1 ≠ k).map Sigma.fst).Nodup :=
    s.entries.nodupKeys.sublist filter_sublist
  rwa [prefixIter, map_map, show fst ∘ (fun p : Sigma fun _ : Key => OverlayEntry =>
    (p.1, p.2)) = Sigma.fst from rfl]

theorem descendantMoves_eq_ok {srcIsDir : Bool}
    {moves : List (Key × Key × OverlayEntry) × List (Key × Key × OverlayEntry)}
    (h : descendantMoves ctx s src dst srcIsDir = .ok moves) :
    moves.1 = [] ∨ moves.1 = (s.prefixIter src).map fun p => (p.1, movedTo src dst p.1, p.2) := by
  rw [descendantMoves] at h
  cases srcIsDir with
  | false =>
    cases h
    exact .inl rfl
  | true =>
    simp only [if_true, bind_eq_ok] at h
    obtain ⟨_, -, _, -, _, -, h⟩ := h
    cases h
    exact .inr rfl

theorem planRename_eq_ok (h : planRename ctx s src dst = .ok plan) :
    ∃ srcIsDir moves, sourceEntry ctx s src = .ok plan.entry ∧
      descendantMoves ctx s src dst srcIsDir = .ok moves ∧
      plan = ⟨src, dst, plan.entry, moves.1, moves.2⟩ := by
  simp only [planRename, bind_eq_ok] at h
  obtain ⟨_, -, _, -, _, -, _, -, _, -, srcIsDir, -, _, -, _, -, entry, hentry, moves,
    hmoves, h⟩ := h
  cases h
  exact ⟨srcIsDir, moves, hentry, hmoves, rfl⟩

theorem sourceEntry_of_get (h : s.get src = some entry) : sourceEntry ctx s src = .ok entry := by
  rw [sourceEntry, h]

/-- **A plan moves what it read from the state.** -/
theorem RenamePlan.matches_of_planRename (h : planRename ctx s src dst = .ok plan) :
    plan.Matches s := by
  obtain ⟨srcIsDir, moves, hentry, hmoves, hplan⟩ := planRename_eq_ok h
  have hcases := descendantMoves_eq_ok hmoves
  rw [hplan]
  refine ⟨fun e he => ?_, fun p hp => ?_, ?_⟩
  · rw [sourceEntry_of_get he] at hentry
    cases hentry
    rfl
  · rcases hcases with hnil | hmap
    · simp [hnil] at hp
    · simp only [hmap, mem_map] at hp
      obtain ⟨q, hq, rfl⟩ := hp
      exact (mem_prefixIter.mp hq).1
  rcases hcases with hnil | hmap
  · simp [hnil]
  have hfst : moves.1.map fst = (s.prefixIter src).map fst := by
    rw [hmap, map_map]
    rfl
  rw [hfst]
  refine nodup_cons.mpr ⟨fun hmem => ?_, nodup_prefixIter s src⟩
  obtain ⟨q, hq, hsrc⟩ := mem_map.mp hmem
  exact (mem_prefixIter.mp hq).2.2 hsrc

end Monty.Fs
