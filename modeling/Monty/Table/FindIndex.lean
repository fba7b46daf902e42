import Monty.Table.Probe
import Mathlib.Tactic.IntervalCases

/-!
# What a probe answers

Whatever guest code does during the comparisons, an answer of `findIndex` is right for the table at
the moment it is given:

* a slot that is returned holds a live entry with the hash, and the last comparison made was of that
  entry's key, and found it equal (`Guest.Hit`);
* when no slot is returned, every entry with the hash has a key that was compared since the last
  restart and found unequal (`Guest.Miss`).

Between two restarts no key is handed to a user `__eq__` twice, and no slot out of range is read.
The invariant of the later passes is `Tracked`: the keys compared so far are held, so an identity
that was seen belongs to one of them.
-/

namespace Monty

open BucketTable List Prod PyHashTable Probing
open TableEntry (isLive probeKey)

/-- The keys handed to `pyEq`, in order. -/
def userKeys {K : Type} (pass : List (Comparison K)) : List K := (pass.filter (·.user)).map (·.key)

@[simp] theorem userKeys_append {K : Type} (p q : List (Comparison K)) :
    userKeys (p ++ q) = userKeys p ++ userKeys q := by
  simp [userKeys]

/-- No key was handed to `pyEq` twice without a restart in between. -/
def Probing.Fresh {σ K : Type} (w : Probing σ K) : Prop :=
  ∀ pass ∈ w.pass :: w.earlier, (userKeys pass).Nodup

/-- A restart files the pass away. -/
theorem Probing.Fresh.restarted {σ K : Type} {w : Probing σ K} (hw : w.Fresh) :
    w.restarted.Fresh :=
  forall_mem_cons.mpr ⟨nodup_nil, hw⟩

namespace Guest

variable {σ T E K I Err : Type} [BucketTable T] [TableEntry E K] (g : Guest σ T E K I Err)

/-- The slot holds an entry with the hash, and the last comparison found its key equal. -/
def Hit (hash : UInt64) (slot : Nat) (w : Probing σ K) : Prop :=
  ∃ e, (g.table w.state).getLive slot = some e ∧ TableEntry.hash e = hash ∧
    ∃ c, w.pass.getLast? = some c ∧ c.key = probeKey e ∧ c.answer = some true

/-- Every entry with the hash has a key that was compared since the last restart, and was not
equal. -/
def Miss (hash : UInt64) (w : Probing σ K) : Prop :=
  ∀ e ∈ (g.table w.state).live, TableEntry.hash e = hash →
    ∃ c ∈ w.pass, c.key = probeKey e ∧ c.answer = some false

variable {g}

variable {hash : UInt64} {k : K} {s : σ} {index : Nat}

/-- A candidate that is valid names an entry with its very key. -/
theorem exists_of_probeValid [DecidableEq I]
    (hvalid : g.probeValid index hash k s = true) (hk : k ∈ g.alive s) :
    ∃ e, (g.table s).getLive index = some e ∧ TableEntry.hash e = hash ∧ probeKey e = k := by
  simp only [probeValid, Option.any_eq_true, Bool.and_eq_true, beq_iff_eq,
    decide_eq_true_eq] at hvalid
  obtain ⟨e, he, hhash, hident⟩ := hvalid
  have hstored : probeKey e ∈ g.alive s := g.alive_stored s e (mem_live.mpr ⟨_, he⟩)
  exact ⟨e, he, hhash, g.ident_inj s _ _ hstored hk hident⟩

/-- Giving up on a pass changes nothing. -/
theorem restart_cases (w : Probing σ K) :
    g.restart w = (.ok .restart, w) ∨ ∃ err, g.restart w = (.error (.raised err), w) := by
  unfold restart
  split
  · exact .inr ⟨_, rfl⟩
  · exact .inl rfl

/-! ## The snapshot -/

/-- What a snapshot says about the slots that were walked over. -/
structure Taken (g : Guest σ T E K I Err) (s : σ) (key : K) (hash : UInt64) (slots : List Nat)
    (snapshot : Snapshot K) : Prop where
  candidates : ∀ p ∈ snapshot.candidates, ∃ e, (g.table s).getLive p.1 = some e ∧
    TableEntry.hash e = hash ∧ probeKey e = p.2
  sublist : (snapshot.candidates.map fst).Sublist slots
  native : snapshot.allNative = true →
    g.eqIsNative key = true ∧ ∀ p ∈ snapshot.candidates, g.eqIsNative p.2 = true
  noUser : userKeys snapshot.compared = []
  covered : (g.table s).AllAt slots fun e => TableEntry.hash e = hash →
    (∃ p ∈ snapshot.candidates, p.2 = probeKey e) ∨
      ∃ c ∈ snapshot.compared, c.key = probeKey e ∧ c.answer = some false

theorem snapshotTest_cases (key : K) (hash : UInt64) (snapshot : Snapshot K) (i : Nat) (e : E) :
    (TableEntry.hash e ≠ hash ∧ g.snapshotTest key hash snapshot i e = (snapshot, false)) ∨
      TableEntry.hash e = hash ∧ ((∃ eq, g.snapshotTest key hash snapshot i e = ({ snapshot with
            compared := snapshot.compared ++ [⟨probeKey e, false, some eq⟩] }, eq)) ∨
          g.snapshotTest key hash snapshot i e = ({ snapshot with
            candidates := snapshot.candidates ++ [(i, probeKey e)]
            allNative := snapshot.allNative && g.eqIsNative (probeKey e) }, false)) := by
  unfold snapshotTest
  by_cases hh : TableEntry.hash e = hash
  · rw [if_neg (not_not_intro hh)]
    refine .inr ⟨hh, ?_⟩
    split
    · exact .inl ⟨_, rfl⟩
    · exact .inr rfl
  · rw [if_pos hh]
    exact .inl ⟨hh, rfl⟩

section

variable {key : K} {slots : List Nat} {snapshot : Snapshot K} {i : Nat} {e : E}

theorem Taken.empty : g.Taken s key hash [] ⟨[], g.eqIsNative key, []⟩ where
  candidates := by simp
  sublist := nil_sublist _
  native h := ⟨h, by simp⟩
  noUser := rfl
  covered := by simp [AllAt]

section

variable (ht : g.Taken s key hash slots snapshot) (hi : (g.table s).getLive i = some e)

include ht hi

theorem Taken.skip (hh : TableEntry.hash e ≠ hash) : g.Taken s key hash (slots ++ [i]) snapshot :=
  { ht with
    sublist := ht.sublist.trans (sublist_append_left _ _)
    covered := ht.covered.concat hi fun h => absurd h hh }

theorem Taken.compare : g.Taken s key hash (slots ++ [i]) { snapshot with
      compared := snapshot.compared ++ [⟨probeKey e, false, some false⟩] } :=
  { ht with
    sublist := ht.sublist.trans (sublist_append_left _ _)
    noUser := by rw [userKeys_append, ht.noUser]; rfl
    covered := by
      refine .concat (fun j hj e' he' hh => ?_) hi fun _ =>
        .inr ⟨⟨probeKey e, false, some false⟩, by simp, rfl, rfl⟩
      rcases ht.covered j hj e' he' hh with hcand | ⟨c, hc, hkey⟩
      · exact .inl hcand
      · exact .inr ⟨c, mem_append_left _ hc, hkey⟩ }

theorem Taken.defer (hh : TableEntry.hash e = hash) :
    g.Taken s key hash (slots ++ [i]) { snapshot with
      candidates := snapshot.candidates ++ [(i, probeKey e)]
      allNative := snapshot.allNative && g.eqIsNative (probeKey e) } where
  candidates p hp := by
    rcases mem_append.mp hp with hp | hp
    · exact ht.candidates p hp
    · obtain rfl := mem_singleton.mp hp
      exact ⟨e, hi, hh, rfl⟩
  sublist := by
    rw [map_append]
    exact ht.sublist.append (.refl _)
  native hall := by
    rw [Bool.and_eq_true] at hall
    obtain ⟨hkey, hcand⟩ := ht.native hall.1
    refine ⟨hkey, fun p hp => ?_⟩
    rcases mem_append.mp hp with hp | hp
    · exact hcand p hp
    · obtain rfl := mem_singleton.mp hp
      exact hall.2
  noUser := ht.noUser
  covered := by
    refine .concat (fun j hj e' he' hh' => ?_) hi fun _ =>
      .inl ⟨(i, probeKey e), by simp, rfl⟩
    rcases ht.covered j hj e' he' hh' with ⟨p, hp, hkey⟩ | hcompared
    · exact .inl ⟨p, mem_append_left _ hp, hkey⟩
    · exact .inr hcompared

end

theorem Taken.nodup_keys (ht : g.Taken s key hash (probeSeq (g.table s).indices hash) snapshot) :
    (snapshot.candidates.map snd).Nodup := by
  have hslots : (snapshot.candidates.map fst).Nodup :=
    (nodup_probeSeq (g.valid s).nodup_slots hash).sublist ht.sublist
  refine .map_on ?_ (.of_map _ hslots)
  intro p hp q hq hkey
  obtain ⟨e, he, hh, hkp⟩ := ht.candidates p hp
  obtain ⟨e', he', hh', hkq⟩ := ht.candidates q hq
  have hslot := g.distinct s _ _ _ _ he he' (hh.trans hh'.symm) (hkp.trans (hkey.trans hkq.symm))
  exact Prod.ext hslot hkey

end

/-- **The first walk**: it finds an equal key at once, or takes a snapshot of what is left. -/
theorem snapshot_spec (s : σ) (key : K) (hash : UInt64) : ∃ snapshot found,
      (g.table s).probe hash (g.snapshotTest key hash) ⟨[], g.eqIsNative key, []⟩
        = .ok (snapshot, found) ∧
      match found with
      | some slot => userKeys snapshot.compared = [] ∧
          ∃ e, (g.table s).getLive slot = some e ∧ TableEntry.hash e = hash ∧
            ∃ c, snapshot.compared.getLast? = some c ∧ c.key = probeKey e ∧ c.answer = some true
      | none => g.Taken s key hash (probeSeq (g.table s).indices hash) snapshot := by
  refine (g.valid s).probe_induct (I := g.Taken s key hash)
    (Q := fun slot snapshot => userKeys snapshot.compared = [] ∧
      ∃ e, (g.table s).getLive slot = some e ∧ TableEntry.hash e = hash ∧
        ∃ c, snapshot.compared.getLast? = some c ∧ c.key = probeKey e ∧ c.answer = some true)
    .empty ?_ ?_
  · intro pre i snapshot e _ hpre hi hfalse
    rcases g.snapshotTest_cases key hash snapshot i e with
      ⟨hh, htest⟩ | ⟨hh, ⟨eq, htest⟩ | htest⟩
    · rw [htest]
      exact hpre.skip hi hh
    · rw [htest] at hfalse ⊢
      obtain rfl : eq = false := hfalse
      exact hpre.compare hi
    · rw [htest]
      exact hpre.defer hi hh
  · intro pre i snapshot e _ hpre hi htrue
    rcases g.snapshotTest_cases key hash snapshot i e with
      ⟨hh, htest⟩ | ⟨hh, ⟨eq, htest⟩ | htest⟩
    · rw [htest] at htrue
      cases htrue
    · rw [htest] at htrue ⊢
      obtain rfl : eq = true := htrue
      refine ⟨by rw [userKeys_append, hpre.noUser]; rfl, e, hi, hh, ?_⟩
      exact ⟨⟨probeKey e, false, some true⟩, by simp, rfl, rfl⟩
    · rw [htest] at htrue
      cases htrue

/-! ## Comparing the candidates -/

/-- Comparisons with user code, one for each of some of the keys, in order. -/
structure Calls (w w' : Probing σ K) (keys : List K) (calls : List (Comparison K)) : Prop where
  pass : w'.pass = w.pass ++ calls
  earlier : w'.earlier = w.earlier
  keys : (userKeys calls).Sublist keys

variable {w w' : Probing σ K}

namespace Calls

variable {w'' : Probing σ K} {keys : List K} {calls : List (Comparison K)}

theorem nil (w : Probing σ K) (keys : List K) : Calls w w keys [] :=
  ⟨(append_nil _).symm, rfl, nil_sublist _⟩

theorem single (w : Probing σ K) (k : K) (answer : Option Bool) (s : σ) (keys : List K) :
    Calls w (w.called k answer s) (k :: keys) [⟨k, true, answer⟩] :=
  ⟨rfl, rfl, (nil_sublist keys).cons_cons k⟩

theorem cons {answer : Option Bool} (hcalls : Calls (w.called k answer s) w' keys calls) :
    Calls w w' (k :: keys) (⟨k, true, answer⟩ :: calls) where
  pass := by rw [hcalls.pass, called, append_assoc, singleton_append]
  earlier := hcalls.earlier
  keys := hcalls.keys.cons_cons k

end Calls

/-- What the comparison of a snapshot's candidates may end with. -/
def Verdict.Right (g : Guest σ T E K I Err) (hash : UInt64) (missed : Prop) (w : Probing σ K) :
    Except (Fault Err) Verdict → Prop
  | .ok (.found slot) => g.Hit hash slot w
  | .ok .missed => missed
  | .ok .restart => True
  | .error (.panic _) => False
  | .error (.raised _) => True
  | .error .outOfFuel => True

/-- What is known after comparing the candidates of a snapshot. The calls made are on different
candidates, in order; the objects held are still there; and if all candidates missed, all were
called on. -/
def Compared (g : Guest σ T E K I Err) (hash : UInt64) (allNative : Bool) (held : List K)
    (cs : List (Nat × K)) (w : Probing σ K)
    (out : Except (Fault Err) Verdict × Probing σ K) : Prop :=
  ∃ calls, Calls w out.2 (cs.map snd) calls ∧ (∀ k ∈ held, k ∈ g.alive out.2.state) ∧
    Verdict.Right g hash ((∀ p ∈ cs, ⟨p.2, true, some false⟩ ∈ calls) ∧
      (allNative = true → g.table out.2.state = g.table w.state)) out.2 out.1

variable {calls : List (Comparison K)}

section

variable {allNative : Bool} {held : List K} {cs : List (Nat × K)}

/-- Giving up is always right. -/
theorem Compared.restart (hcalls : Calls w w' (cs.map snd) calls)
    (halive : ∀ k ∈ held, k ∈ g.alive w'.state) :
    g.Compared hash allNative held cs w (g.restart w') := by
  rcases g.restart_cases w' with h | ⟨err, h⟩ <;> rw [h]
  · exact ⟨calls, hcalls, halive, trivial⟩
  · exact ⟨calls, hcalls, halive, trivial⟩

/-- A candidate that missed, and what came of the others. -/
theorem Compared.cons {out : Except (Fault Err) Verdict × Probing σ K}
    (htable : allNative = true → g.table s = g.table w.state)
    (hout : g.Compared hash allNative held cs (w.called k (some false) s) out) :
    g.Compared hash allNative held ((index, k) :: cs) w out := by
  obtain ⟨calls, hcalls, halive, hright⟩ := hout
  refine ⟨_, hcalls.cons, halive, ?_⟩
  obtain ⟨result, w'⟩ := out
  rcases result with (_ | _ | _) | (_ | _ | _)
  case ok.missed =>
    obtain ⟨hmissed, hsame⟩ := hright
    exact ⟨forall_mem_cons.mpr ⟨mem_cons_self, fun p hp => mem_cons_of_mem _ (hmissed p hp)⟩,
      fun h => (hsame h).trans (htable h)⟩
  all_goals exact hright

end

/-- **Comparing the candidates of a snapshot.** -/
theorem compareCandidates_spec [DecidableEq I] (key : K) (hash : UInt64) (allNative : Bool)
    (held : List K) (cs : List (Nat × K)) (w : Probing σ K) (hheld : ∀ p ∈ cs, p.2 ∈ held)
    (halive : ∀ k ∈ held, k ∈ g.alive w.state)
    (hnative : allNative = true → g.eqIsNative key = true ∧ ∀ p ∈ cs, g.eqIsNative p.2 = true ∧
      ∃ e, (g.table w.state).getLive p.1 = some e ∧ TableEntry.hash e = hash ∧ probeKey e = p.2) :
    g.Compared hash allNative held cs w (g.compareCandidates key hash allNative held cs w) := by
  induction cs generalizing w with
  | nil => exact ⟨[], .nil w _, halive, by simp, fun _ => rfl⟩
  | cons p rest ih =>
    obtain ⟨index, k⟩ := p
    have hk : k ∈ held := hheld (index, k) mem_cons_self
    rw [compareCandidates]
    split
    · exact .restart (.nil w _) halive
    rcases hpy : g.pyEq held k key w.state with ⟨answer, s⟩
    have hs : s = (g.pyEq held k key w.state).2 := by rw [hpy]
    have halive' : ∀ k' ∈ held, k' ∈ g.alive s := fun k' hk' =>
      hs ▸ g.alive_held held k key w.state k' hk' (halive k' hk')
    have htable : allNative = true → g.table s = g.table w.state := fun h =>
      hs ▸ g.table_pyEq held k key w.state ((hnative h).2 _ mem_cons_self).1 (hnative h).1
    cases answer with
    | error err => exact ⟨_, .single w k none s _, halive', trivial⟩
    | ok eq =>
      dsimp only
      split
      · exact .restart (.single w k (some eq) s _) halive'
      next hvalid =>
      cases eq with
      | true =>
        refine ⟨_, .single w k (some true) s _, halive', ?_⟩
        -- the entry is the candidate's: it was checked, or the table is still the snapshot's
        have hentry : ∃ e, (g.table s).getLive index = some e ∧ TableEntry.hash e = hash ∧
            probeKey e = k := by
          cases hall : allNative with
          | true =>
            rw [htable hall]
            exact ((hnative hall).2 _ mem_cons_self).2
          | false =>
            refine g.exists_of_probeValid ?_ (halive' k hk)
            simpa [hall, called] using hvalid
        obtain ⟨e, he, hhash, hkey⟩ := hentry
        exact ⟨e, he, hhash, ⟨k, true, some true⟩, by simp [called], hkey.symm, rfl⟩
      | false =>
        refine .cons htable (ih _ (fun p hp => hheld p (mem_cons_of_mem _ hp)) halive' ?_)
        intro hall
        refine ⟨(hnative hall).1, fun p hp => ?_⟩
        have hp' := (hnative hall).2 p (mem_cons_of_mem _ hp)
        rw [← htable hall] at hp'
        exact hp'

/-! ## The later passes -/

/-- What the later passes know: the keys compared so far, all held and all missed. -/
structure Tracked (g : Guest σ T E K I Err) (seen : Seen K I) (w : Probing σ K) : Prop where
  fresh : (userKeys w.pass).Nodup
  called : ∀ k ∈ userKeys w.pass, k ∈ seen.compared
  ids : ∀ i, i ∈ seen.ids ↔ ∃ k ∈ seen.compared, g.ident k = i
  missed : ∀ k ∈ seen.compared, ∃ c ∈ w.pass, c.key = k ∧ c.answer = some false
  alive : ∀ k ∈ seen.compared, k ∈ g.alive w.state

namespace Tracked

variable {seen : Seen K I}

theorem nodup_called (ht : g.Tracked seen w) (hk : g.ident k ∉ seen.ids) (answer : Option Bool)
    (s : σ) : (userKeys (w.called k answer s).pass).Nodup := by
  have hnew : k ∉ userKeys w.pass := fun hmem =>
    hk ((ht.ids _).mpr ⟨k, ht.called k hmem, rfl⟩)
  rw [Probing.called, userKeys_append]
  exact .append ht.fresh (nodup_singleton k) (by
    simpa [userKeys, disjoint_singleton] using hnew)

theorem mem_compared (ht : g.Tracked seen w) (hk : k ∈ g.alive w.state)
    (hident : g.ident k ∈ seen.ids) : k ∈ seen.compared := by
  obtain ⟨k', hk', hsame⟩ := (ht.ids _).mp hident
  rwa [← g.ident_inj w.state _ _ (ht.alive k' hk') hk hsame]

/-- One more key that missed. -/
theorem miss (ht : g.Tracked seen w) (hk : g.ident k ∉ seen.ids)
    (halive : ∀ k' ∈ seen.compared ++ [k], k' ∈ g.alive s) :
    g.Tracked ⟨seen.compared ++ [k], g.ident k :: seen.ids, true⟩ (w.called k (some false) s) where
  fresh := ht.nodup_called hk _ _
  called k' hk' := by
    rw [Probing.called, userKeys_append] at hk'
    rcases mem_append.mp hk' with hk' | hk'
    · exact mem_append_left _ (ht.called k' hk')
    · exact mem_append_right _ hk'
  ids i := by
    simp only [mem_cons, ht.ids, mem_append, not_mem_nil, or_false]
    constructor
    · rintro (rfl | ⟨k', hk', rfl⟩)
      · exact ⟨k, .inr rfl, rfl⟩
      · exact ⟨k', .inl hk', rfl⟩
    · rintro ⟨k', hk' | rfl, rfl⟩
      · exact .inr ⟨k', hk', rfl⟩
      · exact .inl rfl
  missed k' hk' := by
    rcases mem_append.mp hk' with hk' | hk'
    · obtain ⟨c, hc, hmiss⟩ := ht.missed k' hk'
      exact ⟨c, mem_append_left _ hc, hmiss⟩
    · obtain rfl := mem_singleton.mp hk'
      exact ⟨_, mem_append_right _ (mem_singleton_self _), rfl, rfl⟩
  alive := halive

end Tracked

/-- What a pass of `probeAfterCompare` may end with. -/
def Verdict.Right₂ (g : Guest σ T E K I Err) (hash : UInt64) (missed : Seen K I → Prop)
    (w : Probing σ K) : Except (Fault Err) (Verdict × Seen K I) → Prop
  | .ok (.found slot, _) => g.Hit hash slot w
  | .ok (.missed, seen) => missed seen
  | .ok (.restart, _) => True
  | .error (.panic _) => False
  | .error (.raised _) => True
  | .error .outOfFuel => True

theorem Verdict.Right₂.imp {missed missed' : Seen K I → Prop} {w : Probing σ K}
    {result : Except (Fault Err) (Verdict × Seen K I)}
    (hright : Verdict.Right₂ g hash missed w result) (himp : ∀ seen, missed seen → missed' seen) :
    Verdict.Right₂ g hash missed' w result := by
  rcases result with (_ | _ | _) | ⟨_ | _ | _, seen⟩
  case ok.missed => exact himp seen hright
  all_goals exact hright

/-- What is known after a pass of `probeAfterCompare`. A pass that compared nothing has changed
nothing, and had seen all its candidates before. -/
def Passed (g : Guest σ T E K I Err) (hash : UInt64) (cs : List (Nat × K)) (seen : Seen K I)
    (w : Probing σ K) (out : Except (Fault Err) (Verdict × Seen K I) × Probing σ K) : Prop :=
  out.2.earlier = w.earlier ∧ (userKeys out.2.pass).Nodup ∧
    Verdict.Right₂ g hash (fun seen' => g.Tracked seen' out.2 ∧
      (seen.comparedAny = true → seen'.comparedAny = true) ∧
      (seen'.comparedAny = false → out.2 = w ∧ ∀ p ∈ cs, g.ident p.2 ∈ seen.ids)) out.2 out.1

variable {cs : List (Nat × K)}

theorem Passed.restart {seen seen' : Seen K I}
    {w w' : Probing σ K} (hearlier : w'.earlier = w.earlier) (hfresh : (userKeys w'.pass).Nodup) :
    g.Passed hash cs seen w ((g.restart w').1.map (·, seen'), w') := by
  rcases g.restart_cases w' with h | ⟨err, h⟩ <;> rw [h]
  · exact ⟨hearlier, hfresh, trivial⟩
  · exact ⟨hearlier, hfresh, trivial⟩

/-- **One later pass.** -/
theorem comparePass_spec [DecidableEq I] (key : K) (hash : UInt64) (held : List K)
    (cs : List (Nat × K)) (seen : Seen K I) (w : Probing σ K) (hheld : ∀ p ∈ cs, p.2 ∈ held)
    (halive : ∀ k ∈ held, k ∈ g.alive w.state) (ht : g.Tracked seen w) :
    g.Passed hash cs seen w (g.comparePass key hash held cs seen w) := by
  induction cs generalizing seen w with
  | nil => exact ⟨rfl, ht.fresh, ht, id, fun _ => ⟨rfl, by simp⟩⟩
  | cons p rest ih =>
    obtain ⟨index, k⟩ := p
    have hrest : ∀ p ∈ rest, p.2 ∈ held := fun p hp => hheld p (mem_cons_of_mem _ hp)
    have hk : k ∈ held := hheld (index, k) mem_cons_self
    rw [comparePass]
    split
    · next hseen =>
      -- compared before, so it is passed over
      obtain ⟨hearlier, hfresh, hout⟩ := ih seen w hrest halive ht
      refine ⟨hearlier, hfresh, hout.imp fun seen' hmissed => ?_⟩
      obtain ⟨ht', hany, hnone⟩ := hmissed
      exact ⟨ht', hany, fun h => ⟨(hnone h).1, forall_mem_cons.mpr ⟨hseen, (hnone h).2⟩⟩⟩
    next hseen =>
    dsimp only
    split
    · exact .restart rfl ht.fresh
    rcases hpy : g.pyEq (seen.compared ++ [k] ++ held) k key w.state with ⟨answer, s⟩
    have hall : ∀ k' ∈ seen.compared ++ [k] ++ held, k' ∈ g.alive s := by
      intro k' hk'
      have hs : s = (g.pyEq (seen.compared ++ [k] ++ held) k key w.state).2 := by rw [hpy]
      rw [hs]
      refine g.alive_held _ k key w.state k' hk' ?_
      rcases mem_append.mp hk' with hk' | hk'
      · rcases mem_append.mp hk' with hk' | hk'
        · exact ht.alive k' hk'
        · exact mem_singleton.mp hk' ▸ halive k hk
      · exact halive k' hk'
    cases answer with
    | error err => exact ⟨rfl, ht.nodup_called hseen none s, trivial⟩
    | ok eq =>
      dsimp only
      split
      · exact .restart rfl (ht.nodup_called hseen (some eq) s)
      next hvalid =>
      cases eq with
      | true =>
        refine ⟨rfl, ht.nodup_called hseen (some true) s, ?_⟩
        obtain ⟨e, he, hhash, hkey⟩ := g.exists_of_probeValid
          (by simpa [called] using hvalid) (hall k (by simp))
        exact ⟨e, he, hhash, ⟨k, true, some true⟩, by simp [called], hkey.symm, rfl⟩
      | false =>
        have ht' := ht.miss hseen fun k' hk' => hall k' (mem_append_left _ hk')
        obtain ⟨hearlier, hfresh, hout⟩ := ih _ _ hrest
          (fun k' hk' => hall k' (mem_append_right _ hk')) ht'
        refine ⟨hearlier, hfresh, hout.imp fun seen' hmissed => ?_⟩
        obtain ⟨ht'', hany, -⟩ := hmissed
        refine ⟨ht'', fun _ => hany rfl, fun h => ?_⟩
        rw [hany rfl] at h
        cases h

/-- A new snapshot has every entry with the hash. -/
theorem probeCandidates_spec (hash : UInt64) (s : σ) :
    ∃ cs, g.probeCandidates hash s = .ok cs ∧ (∀ p ∈ cs, p.2 ∈ g.alive s) ∧
      ∀ e ∈ (g.table s).live, TableEntry.hash e = hash → ∃ p ∈ cs, p.2 = probeKey e := by
  obtain ⟨cs, found, hprobe, hfound⟩ := (g.valid s).probe_induct (h := hash)
    (s := ([] : List (Nat × K)))
    (f := fun candidates index e =>
      (if TableEntry.hash e == hash then candidates ++ [(index, probeKey e)]
        else candidates, false))
    (I := fun pre cs => (∀ p ∈ cs, p.2 ∈ g.alive s) ∧ (g.table s).AllAt pre fun e =>
      TableEntry.hash e = hash → ∃ p ∈ cs, p.2 = probeKey e)
    (Q := fun _ _ => False)
    (by simp [AllAt])
    (by
      rintro pre i cs e _ ⟨halive, hall⟩ hi -
      by_cases hh : TableEntry.hash e = hash
      · simp only [hh, beq_self_eq_true, if_true]
        refine ⟨fun p hp => ?_, .concat (fun j hj e' he' hh' => ?_) hi fun _ =>
          ⟨(i, probeKey e), by simp, rfl⟩⟩
        · rcases mem_append.mp hp with hp | hp
          · exact halive p hp
          · obtain rfl := mem_singleton.mp hp
            exact g.alive_stored s e (mem_live.mpr ⟨i, hi⟩)
        · obtain ⟨p, hp, hkey⟩ := hall j hj e' he' hh'
          exact ⟨p, mem_append_left _ hp, hkey⟩
      · simp only [beq_iff_eq, hh, if_false]
        exact ⟨halive, hall.concat hi fun h => absurd h hh⟩)
    (by
      intro _ _ _ _ _ _ _ h
      cases h)
  cases found with
  | some i => exact hfound.elim
  | none =>
    refine ⟨cs, ?_, hfound.1, fun e he hh => (g.valid s).allAt_probeSeq hfound.2 he hh⟩
    rw [probeCandidates, hprobe]
    rfl

/-- **The later passes**: they end when one of them has nothing left to compare. -/
theorem probeAfterCompare_spec [DecidableEq I] (key : K) (hash : UInt64) (fuel : Nat)
    (seen : Seen K I) (w : Probing σ K) (ht : g.Tracked seen w) :
    (g.probeAfterCompare key hash fuel seen w).2.earlier = w.earlier ∧
      (userKeys (g.probeAfterCompare key hash fuel seen w).2.pass).Nodup ∧
      Verdict.Right g hash (g.Miss hash (g.probeAfterCompare key hash fuel seen w).2)
        (g.probeAfterCompare key hash fuel seen w).2
        (g.probeAfterCompare key hash fuel seen w).1 := by
  induction fuel generalizing seen w with
  | zero => exact ⟨rfl, ht.fresh, trivial⟩
  | succ fuel ih =>
    rw [probeAfterCompare]
    split
    · exact ⟨rfl, ht.fresh, trivial⟩
    obtain ⟨cs, hcs, halive, hcover⟩ := g.probeCandidates_spec hash w.state
    rw [hcs]
    have ht0 : g.Tracked { seen with comparedAny := false } w := { ht with }
    have hpass := g.comparePass_spec key hash (cs.map snd) cs
      { seen with comparedAny := false } w (fun p hp => mem_map_of_mem hp)
      (fun k hk => by
        obtain ⟨p, hp, rfl⟩ := mem_map.mp hk
        exact halive p hp) ht0
    dsimp only
    split
    · next fault w' hout =>
      rw [hout] at hpass
      obtain ⟨hearlier, hfresh, hright⟩ := hpass
      refine ⟨hearlier, hfresh, ?_⟩
      cases fault <;> exact hright
    · next seen' w' hout =>
      rw [hout] at hpass
      obtain ⟨hearlier, hfresh, ht', -, hnone⟩ := hpass
      split
      · obtain ⟨hearlier', hrest⟩ := ih seen' w' ht'
        exact ⟨hearlier'.trans hearlier, hrest⟩
      next hany =>
      refine ⟨hearlier, hfresh, ?_⟩
      -- nothing was compared, so the table is the one the candidates were read from
      obtain ⟨hsame, hseen⟩ := hnone (by simpa using hany)
      obtain rfl : w' = w := hsame
      intro e he hh
      obtain ⟨p, hp, hkey⟩ := hcover e he hh
      rw [← hkey]
      exact ht.missed _ (ht.mem_compared (halive p hp) (hseen p hp))
    · next verdict seen' w' hne hout =>
      rw [hout] at hpass
      obtain ⟨hearlier, hfresh, hright⟩ := hpass
      refine ⟨hearlier, hfresh, ?_⟩
      cases verdict with
      | found slot => exact hright
      | missed => exact absurd rfl hne
      | restart => trivial

/-! ## The whole probe -/

def Answered (g : Guest σ T E K I Err) (hash : UInt64)
    (out : Except (Fault Err) (Option Nat) × Probing σ K) : Prop :=
  out.2.Fresh ∧
    match out.1 with
    | .ok (some slot) => g.Hit hash slot out.2
    | .ok none => g.Miss hash out.2
    | .error (.panic _) => False
    | .error (.raised _) => True
    | .error .outOfFuel => True

/-- The keys of a snapshot that all missed are what the later passes start from. -/
theorem Calls.tracked {w w' : Probing σ K}
    (hcalls : Calls w w' (cs.map snd) calls) (hnone : userKeys w.pass = [])
    (hnodup : (cs.map snd).Nodup) (hmissed : ∀ p ∈ cs, ⟨p.2, true, some false⟩ ∈ calls)
    (halive : ∀ k ∈ cs.map snd, k ∈ g.alive w'.state) :
    g.Tracked ⟨cs.map snd, (cs.map snd).map g.ident, false⟩ w' := by
  have huser : userKeys w'.pass = userKeys calls := by
    rw [hcalls.pass, userKeys_append, hnone, nil_append]
  exact
    { fresh := huser ▸ hnodup.sublist hcalls.keys
      called := fun k hk => hcalls.keys.subset (huser ▸ hk)
      ids := fun i => mem_map
      missed := fun k hk => by
        obtain ⟨p, hp, rfl⟩ := mem_map.mp hk
        exact ⟨_, hcalls.pass ▸ mem_append_right _ (hmissed p hp), rfl, rfl⟩
      alive := halive }

/-- A snapshot whose candidates were all compared natively is the whole table. -/
theorem Taken.miss {w w' : Probing σ K} {key : K} {snapshot : Snapshot K}
    (ht : g.Taken w.state key hash (probeSeq (g.table w.state).indices hash) snapshot)
    (hsame : g.table w'.state = g.table w.state) (hcompared : ∀ c ∈ snapshot.compared, c ∈ w'.pass)
    (hmissed : ∀ p ∈ snapshot.candidates, ⟨p.2, true, some false⟩ ∈ w'.pass) : g.Miss hash w' := by
  intro e he hh
  rw [hsame] at he
  rcases (g.valid w.state).allAt_probeSeq ht.covered he hh with ⟨p, hp, hkey⟩ | ⟨c, hc, hkey⟩
  · exact ⟨_, hmissed p hp, hkey, rfl⟩
  · exact ⟨c, hcompared c hc, hkey⟩

theorem answered_findIndex [DecidableEq I] (key : K) (hash : UInt64) (fuel : Nat) (w : Probing σ K)
    (hw : w.Fresh) (hpass : w.pass = []) : g.Answered hash (g.findIndex key hash fuel w) := by
  induction fuel generalizing w with
  | zero => exact ⟨hw, trivial⟩
  | succ fuel ih =>
    obtain ⟨snapshot, found, hprobe, hfound⟩ := g.snapshot_spec w.state key hash
    have hearlier : ∀ pass ∈ w.earlier, (userKeys pass).Nodup := fun pass h =>
      hw pass (mem_cons_of_mem _ h)
    rw [findIndex, hprobe]
    dsimp only
    rw [hpass, nil_append]
    cases found with
    | some slot =>
      obtain ⟨hnone, e, he, hh, hlast⟩ := hfound
      refine ⟨?_, e, he, hh, hlast⟩
      exact forall_mem_cons.mpr ⟨by simp [hnone], hearlier⟩
    | none =>
      have ht : g.Taken w.state key hash _ snapshot := hfound
      have hfresh : (⟨w.state, snapshot.compared, w.earlier⟩ : Probing σ K).Fresh :=
        forall_mem_cons.mpr ⟨by simp [ht.noUser], hearlier⟩
      by_cases hempty : snapshot.candidates.isEmpty = true
      · rw [if_pos hempty]
        have hmiss : g.Miss hash ⟨w.state, snapshot.compared, w.earlier⟩ := by
          refine ht.miss rfl (fun _ hc => hc) fun p hp => ?_
          rw [isEmpty_iff.mp hempty] at hp
          cases hp
        exact ⟨hfresh, hmiss⟩
      rw [if_neg hempty]
      have halive : ∀ k ∈ snapshot.candidates.map snd, k ∈ g.alive w.state := by
        intro k hk
        obtain ⟨p, hp, rfl⟩ := mem_map.mp hk
        obtain ⟨e, he, -, hkey⟩ := ht.candidates p hp
        exact hkey ▸ g.alive_stored w.state e (mem_live.mpr ⟨_, he⟩)
      obtain ⟨calls, hcalls, halive', hright⟩ := g.compareCandidates_spec key hash
        snapshot.allNative (snapshot.candidates.map snd) snapshot.candidates
        ⟨w.state, snapshot.compared, w.earlier⟩ (fun p hp => mem_map_of_mem hp) halive
        fun hall => ⟨(ht.native hall).1, fun p hp => ⟨(ht.native hall).2 p hp, ht.candidates p hp⟩⟩
      generalize g.compareCandidates key hash snapshot.allNative _ _ _ = out
        at hcalls halive' hright
      obtain ⟨result, w'⟩ := out
      have hfresh' : w'.Fresh := by
        refine forall_mem_cons.mpr ⟨?_, hcalls.earlier ▸ hearlier⟩
        rw [hcalls.pass, userKeys_append, ht.noUser, nil_append]
        exact ht.nodup_keys.sublist hcalls.keys
      rcases result with fault | (slot | _ | _)
      · refine ⟨hfresh', ?_⟩
        cases fault <;> exact hright
      · exact ⟨hfresh', hright⟩
      · obtain ⟨hmissed, hsame⟩ := hright
        dsimp only
        split
        · next hall =>
          refine ⟨hfresh', ht.miss (hsame hall) (fun c hc => ?_) fun p hp => ?_⟩
          · exact hcalls.pass ▸ mem_append_left _ hc
          · exact hcalls.pass ▸ mem_append_right _ (hmissed p hp)
        obtain ⟨hearlier', hfresh'', hright'⟩ := g.probeAfterCompare_spec key hash fuel _ w'
          (hcalls.tracked ht.noUser ht.nodup_keys hmissed halive')
        generalize g.probeAfterCompare key hash fuel _ w' = out' at hearlier' hfresh'' hright'
        obtain ⟨result', w''⟩ := out'
        have hall : w''.Fresh := forall_mem_cons.mpr ⟨hfresh'', fun pass h =>
          hfresh' pass (mem_cons_of_mem _ (hearlier' ▸ h))⟩
        rcases result' with fault | (slot | _ | _)
        · refine ⟨hall, ?_⟩
          cases fault <;> exact hright'
        · exact ⟨hall, hright'⟩
        · exact ⟨hall, hright'⟩
        · exact ih _ hall.restarted rfl
      · exact ih _ hfresh'.restarted rfl

/-- **Probing under adversarial guest code.** Whatever the comparisons do to the table, if the probe
returns a slot, then the slot now holds a live entry with the hash, and the last comparison found
its key equal; if it returns none, every entry that now has the hash has a key that was compared and
found unequal; between restarts no key is handed to a user `__eq__` twice; and no slot out of range
is read. -/
theorem findIndex_spec [DecidableEq I] (g : Guest σ T E K I Err) (key : K) (hash : UInt64)
    (fuel : Nat) (s : σ) :
    let (result, w) := g.findIndex key hash fuel (.start s)
    (∀ slot, result = .ok (some slot) → g.Hit hash slot w) ∧
      (result = .ok none → g.Miss hash w) ∧ w.Fresh ∧ ∀ p, result ≠ .error (.panic p) := by
  have hanswered := g.answered_findIndex key hash fuel (.start s)
    (forall_mem_cons.mpr ⟨nodup_nil, by simp [Probing.start]⟩) rfl
  generalize g.findIndex key hash fuel (.start s) = out at hanswered
  obtain ⟨result, w⟩ := out
  obtain ⟨hfresh, hright⟩ := hanswered
  refine ⟨?_, ?_, hfresh, ?_⟩
  · rintro slot rfl
    exact hright
  · rintro rfl
    exact hright
  · rintro p rfl
    exact hright

/-- A set with one element whose `__eq__` answers no, but adds an element with the same hash. -/
def colliding : Guest Bool (List (UInt64 × Nat)) (SetEntry Nat) (Option Nat) (Option Nat) Unit where
  table added :=
    if added then (PyHashTable.default.push ⟨some 1, 5⟩).push ⟨some 2, 5⟩
    else default.push ⟨some 1, 5⟩
  pyEq _ _ _ _ := (.ok false, true)
  checkMemoryTime _ := .ok ()
  ident := id
  probeNativeEq _ _ := none
  eqIsNative _ := false
  alive _ := Set.univ
  valid added := by
    have hone := (push_spec (T := List (UInt64 × Nat)) (E := SetEntry Nat)
      (e := ⟨some 1, 5⟩) valid_default rfl).1
    cases added
    · exact hone
    · exact (PyHashTable.push_spec hone rfl).1
  distinct added i j e e' hi hj _ hkey := by
    have hlt := lt_of_getLive hi
    have hlt' := lt_of_getLive hj
    cases added
    · obtain rfl : i = 0 := Nat.lt_one_iff.mp hlt
      exact (Nat.lt_one_iff.mp hlt').symm
    have hi2 : i < 2 := hlt
    have hj2 : j < 2 := hlt'
    interval_cases i <;> interval_cases j <;> first
      | rfl
      | (cases hi; cases hj; cases hkey)
  alive_stored _ _ _ := trivial
  alive_held _ _ _ _ _ _ _ := trivial
  ident_inj _ _ _ _ _ h := h
  table_pyEq _ _ _ _ h := by cases h

/-- The element that was added is compared as well, and the first one only once. -/
theorem findIndex_spec_colliding : (colliding.findIndex (some 9) 5 3 (.start false)).1 = .ok none ∧
      userKeys (colliding.findIndex (some 9) 5 3 (.start false)).2.pass = [some 1, some 2] ∧
      colliding.Miss 5 (colliding.findIndex (some 9) 5 3 (.start false)).2 :=
  ⟨rfl, rfl, (findIndex_spec colliding (some 9) 5 3 false).2.1 rfl⟩

end Guest

end Monty
