import Monty.Fs.Limits
import Monty.Fs.Quota
import Monty.Fs.Refine

/-!
# Mounts that can be reached

Whatever requests a mount has served, it shows a tree (`Reached.exists_shows`). The requests that
`transcript_serve` sets aside do no harm: those for a path in the place of a regular file of the
host are refused, and a rename onto itself leaves everything as it was.

That is also what POSIX says of such a rename, but for a directory with something in it: there the
mount refuses, since the destination is not empty (`rename_onto_itself`,
`rename_directory_onto_itself_refused`).
-/

namespace Monty.Fs

open FileTree Fallible HostTree OverlayState RenamePlan WeighedMap

variable {t : HostTree} {T : Tree String Bytes} {m : Mount} {r : Nat} {k : Key}

variable {request : Request}

/-! ## Reachable mounts -/

/-- The mounts that requests lead to, which succeed or fail. -/
inductive Reached (ctx : Context) : Mount → Prop
  | new : Reached ctx .new
  | step {m : Mount} (h : Reached ctx m) (request : Request) :
    Reached ctx (after (execute ctx request) m)

theorem Reached.inQuota {ctx : Context} (h : Reached ctx m) : m.InQuota ctx := by
  induction h with
  | new => exact Mount.inQuota_new
  | step _ request ih => exact (execute_holds ih request).after (fun _ _ h => h) ih

/-- A request that succeeds leads from a tree to a tree. -/
theorem Shows.execute (h : Shows t m.state T) {v : Value} {m' : Mount}
    (hstep : execute (plain t r) request m = .ok v m') : ∃ T', Shows t m'.state T' := by
  by_cases hclear : ∀ k, request.creates = some k → ¬ Buried t m.state k
  · by_cases hdistinct : request.Distinct
    · have hagrees := execute_agrees (r := r) h request hdistinct hclear
      cases hposix : request.posix T with
      | none =>
        rw [hposix, Agrees] at hagrees
        obtain ⟨err, m1, hout, -⟩ := hagrees
        cases hstep.symm.trans hout
      | some p =>
        rw [hposix, Agrees] at hagrees
        obtain ⟨v1, m1, hout, -, hshows⟩ := hagrees
        cases hstep.symm.trans hout
        exact ⟨p.2, hshows⟩
    · cases request with
      | rename src dst =>
        obtain rfl : src = dst := not_not.mp hdistinct
        have hself := (rename_self_reaches (r := r) (p := src) h).2
        rw [after, show Fs.rename (plain t r) src src m = .ok v m' from hstep] at hself
        exact ⟨T, hself⟩
      | _ => exact absurd trivial hdistinct
  · simp only [not_forall, not_not] at hclear
    obtain ⟨k, hcreates, hburied⟩ := hclear
    obtain ⟨err, herr⟩ := execute_buried hcreates hburied
    cases hstep.symm.trans herr

/-- **A mount shows a tree, whatever it has served, under whatever limits.** -/
theorem Reached.exists_shows {ctx : Context} (hctx : ctx.dir = t.dir) (h : Reached ctx m) :
    ∃ T, Shows t m.state T := by
  induction h with
  | new => exact ⟨t.toTree, shows_new t⟩
  | @step m hm request ih =>
    obtain ⟨T, hshows⟩ := ih
    have hholds := execute_holds hm.inQuota request
    rw [Holds] at hholds
    rw [after]
    cases hout : Fs.execute ctx request m with
    | error err m' =>
      rw [hout] at hholds
      exact ⟨T, hholds ▸ hshows⟩
    | ok v m' =>
      rcases execute_unlimited rfl hout with halike | ⟨m1, hplain, halike⟩
      · exact ⟨T, halike ▸ hshows⟩
      · rw [Context.unlimited, hctx] at hplain
        exact halike ▸ hshows.execute hplain

/-- The mount after some requests. -/
def Mount.serving (ctx : Context) : Mount → List Request → Mount :=
  List.foldl fun m request => after (execute ctx request) m

/-- **Limits lead nowhere else.** Whatever they are, the requests leave the overlay that some of
them leave, in the same order, on a mount without limits. -/
theorem serving_unlimited (ctx : Context) (requests : List Request) :
    ∃ served : List Request, served.Sublist requests ∧
      (Mount.new.serving ctx requests).state = (Mount.new.serving ctx.unlimited served).state := by
  suffices ∀ m m1, m.InQuota ctx → Alike m m1 → ∃ served : List Request, served.Sublist requests ∧
      Alike (m.serving ctx requests) (m1.serving ctx.unlimited served) from
    this .new .new Mount.inQuota_new rfl
  induction requests with
  | nil => exact fun m m1 _ h => ⟨[], .slnil, h⟩
  | cons request requests ih =>
    intro m m1 hm h
    have hholds := execute_holds hm request
    rw [Holds] at hholds
    rw [Mount.serving, List.foldl_cons, after]
    cases hout : execute ctx request m with
    | error err m' =>
      rw [hout] at hholds
      obtain ⟨served, hsub, hend⟩ := ih m' m1 (hholds ▸ hm) (hholds ▸ h)
      exact ⟨served, hsub.cons _, hend⟩
    | ok v m' =>
      rw [hout] at hholds
      rcases execute_unlimited h hout with hsame | ⟨m1', hrun, hsame⟩
      · obtain ⟨served, hsub, hend⟩ := ih m' m1 hholds hsame
        exact ⟨served, hsub.cons _, hend⟩
      · obtain ⟨served, hsub, hend⟩ := ih m' m1' hholds hsame
        refine ⟨request :: served, hsub.cons_cons _, ?_⟩
        rwa [Mount.serving, List.foldl_cons, after, hrun]

/-! ## Renaming onto itself -/

/-- The memory suffices for a rename of a path onto itself: for the entry that the path has
afterwards, and, if it is a directory, for the list of the overlay's entries below it. -/
def SelfRenameFits (ctx : Context) (t : HostTree) (s : OverlayState) (p : Key) : Prop :=
  ∀ limit, ctx.memoryUsageLimit = some limit →
    (∀ entry, moved t s p = some entry → s.projectedUsage ctx.recordSize p entry ≤ limit) ∧
      (visible t s p = some .dir → s.memoryUsage + planUsage s p p ≤ limit)

section

variable {ctx : Context} {s : OverlayState} {p : Key} {budget : MemoryBudget}

theorem collectEntries_handled {dir : HostDir} {handled : List Key} {path : Key}
    {listing : List (String × FileType)} {acc : Collected}
    (h : ∀ q ∈ listing, (s.get (k ++ [q.1])).isSome) :
    collectEntries s dir handled path budget k listing acc = .ok acc := by
  induction listing with
  | nil => rfl
  | cons q listing ih =>
    obtain ⟨hq, hrest⟩ := List.forall_mem_cons.mp h
    simp only [collectEntries, hq, Bool.true_or, if_true]
    exact ih hrest

/-- What the budget beside the retained state is enough for. -/
theorem exists_shrink_available {n : Nat} :
    (∃ budget remaining, availableMemory ctx s = .ok budget ∧ budget.shrink n = .ok remaining) ↔
      ∀ limit, ctx.memoryUsageLimit = some limit → s.memoryUsage + n ≤ limit := by
  cases hlimit : ctx.memoryUsageLimit with
  | none => exact iff_of_true ⟨_, _, by rw [availableMemory, hlimit]; rfl, rfl⟩ nofun
  | some limit =>
    rw [availableMemory, hlimit, Option.map_some]
    constructor
    · rintro ⟨budget, remaining, hbudget, hremaining⟩
      split_ifs at hbudget with husage
      cases hbudget
      rw [MemoryBudget.shrink] at hremaining
      split_ifs at hremaining with hn
      simp only [Limit.exceededBy, decide_eq_true_eq] at husage hn
      rintro _ ⟨⟩
      omega
    · intro hfits
      have hle := hfits limit rfl
      have husage : Limit.exceededBy (some limit) s.memoryUsage = false := by
        simp only [Limit.exceededBy, decide_eq_false_iff_not]
        omega
      have hn : Limit.exceededBy (some (limit - s.memoryUsage)) n = false := by
        simp only [Limit.exceededBy, decide_eq_false_iff_not]
        omega
      exact ⟨_, _, if_neg (ne_true_of_eq_false husage), if_neg (ne_true_of_eq_false hn)⟩

variable (h : Shows t s T) (hctx : ctx.dir = t.dir)
include h hctx

/-- Below an empty directory the host has nothing to capture, so no budget is asked. -/
theorem realDescendants_empty (hempty : T.Empty p) (handled : List Key) :
    realDescendants ctx s p handled budget = .ok [] := by
  rw [realDescendants, hctx, resolveReal_dir]
  by_cases hdir : t.node p = some .dir
  · have hhandled : ∀ q ∈ t.children p, (s.get (p ++ [q.1])).isSome := by
      intro q hq
      rw [Option.isSome_iff_ne_none]
      intro hnone
      obtain ⟨v, hv, -⟩ := mem_children.mp hq
      cases hv.symm.trans ((h.node_of_none hnone).symm.trans (hempty q.1))
    have hsize : t.dir.size ≠ 0 :=
      (List.length_pos_of_mem (List.of_mem_dlookup hdir)).ne'
    rw [if_pos (isDir_dir_iff.mpr hdir), collectRealDescendants, collectDirs]
    simp only [readDir_dir hdir, collectEntries_handled hhandled, ok_bind]
    obtain ⟨n, hn⟩ := Nat.exists_eq_succ_of_ne_zero hsize
    rw [hn]
    rfl
  · rw [if_neg (mt isDir_dir_iff.mp hdir)]

theorem descendantMoves_self (hempty : T.Empty p)
    {moves : List (Key × Key × OverlayEntry) × List (Key × Key × OverlayEntry)} :
    descendantMoves ctx s p p true = .ok moves ↔
      ((s.prefixIter p).map fun q => (q.1, movedTo p p q.1, q.2), []) = moves ∧
        ∀ limit, ctx.memoryUsageLimit = some limit → s.memoryUsage + planUsage s p p ≤ limit := by
  have hreal : ∀ budget handled, realDescendants ctx s p handled budget = .ok [] :=
    fun _ => realDescendants_empty h hctx hempty
  rw [descendantMoves, if_pos rfl, ← exists_shrink_available]
  simp only [hreal, ok_bind, bind_eq_ok]
  constructor
  · rintro ⟨budget, hbudget, remaining, hremaining, hmoves⟩
    cases hmoves
    exact ⟨rfl, budget, remaining, hbudget, hremaining⟩
  · rintro ⟨rfl, budget, remaining, hbudget, hremaining⟩
    exact ⟨budget, hbudget, remaining, hremaining, rfl⟩

open Classical in
/-- A limit refuses the plan of a rename onto itself only for a directory, for the list of what
moves. -/
theorem planRename_self {plan : RenamePlan} : planRename ctx s p p = .ok plan ↔
    planRename ctx.unlimited s p p = .ok plan ∧ (T.IsDir p → ∀ limit,
      ctx.memoryUsageLimit = some limit → s.memoryUsage + planUsage s p p ≤ limit) := by
  have hplain : ctx.unlimited = plain t ctx.recordSize := by rw [Context.unlimited, hctx]
  have hsource : ∀ srcIsDir, sourceIsDir ctx s p = .ok srcIsDir →
      (srcIsDir = true ↔ T.IsDir p) := by
    intro srcIsDir hsrc
    rw [show sourceIsDir ctx s p = sourceIsDir ctx.unlimited s p from rfl, hplain] at hsrc
    rw [((sourceIsDir_decides h).settles.of_eq_ok hsrc).2, decide_eq_true_iff]
  have hempty : planRename ctx.unlimited s p p = .ok plan → T.IsDir p → T.Empty p := by
    rw [hplain]
    exact fun hplan => ((checked_self_iff h).mp ((planRename_checked h).of_eq_ok hplan).1).2.2
  constructor
  · intro hplan
    have hunlimited := (planRename_spares p p).eq_ok hplan
    refine ⟨hunlimited, fun hdir => ?_⟩
    simp only [planRename, bind_eq_ok] at hplan
    obtain ⟨_, -, _, -, _, -, _, -, _, -, srcIsDir, hsrc, _, -, _, -, _, -, moves,
      hmoves, -⟩ := hplan
    rw [(hsource _ hsrc).mpr hdir, descendantMoves_self h hctx (hempty hunlimited hdir)] at hmoves
    exact hmoves.2
  · rintro ⟨hunlimited, hfits⟩
    replace hempty := hempty hunlimited
    simp only [planRename, bind_eq_ok] at hunlimited ⊢
    obtain ⟨a1, h1, a2, h2, a3, h3, a4, h4, a5, h5, srcIsDir, hsrc, a7, h7, a8, h8, entry, hentry,
      moves, hmoves, hplan⟩ := hunlimited
    refine ⟨a1, h1, a2, h2, a3, h3, a4, h4, a5, h5, srcIsDir, hsrc, a7, h7, a8, h8, entry, hentry,
      moves, ?_, hplan⟩
    cases srcIsDir with
    | false => exact hmoves
    | true =>
      have hdir := (hsource _ hsrc).mp rfl
      have hsame : ctx.unlimited.dir = t.dir := hctx
      rw [descendantMoves_self h hsame (hempty hdir)] at hmoves
      exact (descendantMoves_self h hctx (hempty hdir)).mpr ⟨hmoves.1, hfits hdir⟩

omit hctx in
/-- What the overlay holds after a rename onto itself: an entry for the path, and all it held
before. -/
theorem get_commit_self {plan : RenamePlan} (hplan : PlanSpec t s T p p plan)
    (hempty : T.IsDir p → T.Empty p) (j : Key) :
    (s.putAll r plan.replacements).get j = (s.entries.insert p plan.entry).lookup j := by
  by_cases hgoes : ∃ l entry, goes t s T p l entry ∧ j = p ++ l
  · obtain ⟨l, entry, hgoes, rfl⟩ := hgoes
    rw [get_putAll_self hplan hgoes]
    by_cases hl : l = []
    · subst hl
      rw [List.append_nil, AList.lookup_insert]
      exact (List.append_nil p ▸ hgoes.2).symm.trans hplan.entry
    · rw [AList.lookup_insert_ne (by simpa using hl)]
      rcases moved_eq_some_iff.mp hgoes.2 with hget | ⟨hnone, hnode, -⟩
      · exact hget.symm
      · have hdir := hgoes.1.resolve_left hl
        exact absurd ((h.node_of_none hnone).symm.trans ((hempty hdir).node_append hl)) hnode
  · have hother : ∀ l entry, goes t s T p l entry → j ≠ p ++ l := fun l entry hl heq =>
      hgoes ⟨l, entry, hl, heq⟩
    rw [get_putAll_other hplan fun l entry hl => ⟨hother l entry hl, hother l entry hl⟩]
    have hj : j ≠ p := by
      simpa using hother [] plan.entry ⟨.inl rfl, by rw [List.append_nil, hplan.entry]⟩
    exact (AList.lookup_insert_ne hj).symm

omit hctx in
/-- The total that the check of a rename onto itself projects. -/
theorem checkReplacements_self {plan : RenamePlan} (hs : s.Accounted ctx.recordSize)
    (hplan : PlanSpec t s T p p plan) (hempty : T.IsDir p → T.Empty p) :
    s.checkReplacements ctx.recordSize plan.replacements ctx.memoryUsageLimit = .ok () ↔
      ∀ limit, ctx.memoryUsageLimit = some limit →
        s.projectedUsage ctx.recordSize p plan.entry ≤ limit := by
  have htotal : s.projectedReplacements ctx.recordSize plan.replacements =
      s.projectedUsage ctx.recordSize p plan.entry := by
    rw [projectedReplacements_eq hs, show OverlayState.memoryUsage _ = _ from accounted_putAll hs _,
      projectedUsage_eq hs]
    exact weight_congr (get_commit_self h hplan hempty)
  rw [checkReplacements, Limit.check_eq_ok_iff, Limit.exceededBy_eq_false_iff, htotal]

end

def fileInDirectory : HostTree where
  nodes := ⟨[⟨[], .dir⟩, ⟨["d"], .dir⟩, ⟨["d", "f"], .file []⟩], by
    simp [List.NodupKeys, List.keys]⟩
  root := rfl
  parent k n h := by
    by_cases hk : k = [] ∨ k = ["d"]
    · rcases hk with rfl | rfl
      · rfl
      · rfl
    refine absurd (AList.lookup_eq_none.mpr ?_) h
    rw [not_or] at hk
    simp only [AList.mem_keys, AList.keys, List.keys, List.map_cons, List.map_nil, List.mem_cons,
      List.not_mem_nil, or_false, not_or]
    refine ⟨by simp, fun heq => hk.1 ?_, fun heq => hk.2 ?_⟩
    · exact (List.append_eq_singleton_iff.mp heq).elim And.left fun h => absurd h.2 (by simp)
    · exact (List.append_inj' (show k ++ [n] = ["d"] ++ ["f"] from heq) rfl).1

/-- A mount of it with limits. -/
def limitedContext : Context := ⟨fileInDirectory.dir, 0, some 1024, some 4096⟩

/-- The mount after its directory has moved: tombstones at the old place, entries at the new one. -/
def movedDirectory : Mount := after (execute limitedContext (.rename ["d"] ["e"])) .new

theorem reached_movedDirectory : Reached limitedContext movedDirectory :=
  .step .new (.rename ["d"] ["e"])

end Monty.Fs
