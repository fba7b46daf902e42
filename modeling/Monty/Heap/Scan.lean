import Monty.Heap.Mark

/-!
# Trial deletion: finding the roots and scanning them

The first two phases of a collection change counts and colours only. This file says what they
establish, in terms of the heap `h` the collection started from.

* After phase 1 there is a set `P` of *candidates*, closed under children and made of what the
  roots reach. Candidates are `gray`, everything else is `black`, and every count is short of the
  edges out of `P` (`Discovered`, `discoverRoots_spec`).
* During phase 2 every count is the external references plus the edges out of the `black` entries
  (`Scanning.refcount`): painting an entry `white` leaves it alone, and `markBlack` adds to the
  counts exactly the edges out of what it paints `black`.
* After phase 2 no entry is `gray`. The `white` ones have no external reference, no reader, and no
  edge from a `black` entry; each is reached from a root through `white` entries, so phase 3 will
  find it (`Scanned`, `scan_spec`).
-/

namespace Monty

open Multigraph List Nat
open Finset hiding filter_cons mem_cons

namespace Heap

variable {D : Type} [HeapItem D]

/-- Between collections every entry is `black` or `purple`. -/
def Settled (h : Heap D) : Prop := ∀ id ∈ h.live, h.color id ≠ .gray ∧ h.color id ≠ .white

/-! ## Phase 1 -/

/-- **The invariant of phase 1**, once the slots below `i` have been looked at: `P` is the set of
entries painted `gray` so far. -/
structure Discovered (h : Heap D) (i : Nat) (P : Finset HeapId) (roots : List HeapId)
    (h' : Heap D) : Prop where
  shape : SameShape h h'
  live : P ⊆ h.live
  closed : ∀ v ∈ P, ∀ w ∈ h.children v, w ∈ P
  roots_mem : ∀ r ∈ roots, r ∈ P
  reach : ∀ x ∈ P, ∃ r ∈ roots, Reach h.children r x
  gray : ∀ x ∈ P, h'.color x = .gray
  black : ∀ x ∈ h.live, x < i → x ∉ P → h'.color x = .black
  ahead : ∀ x ∈ h.live, i ≤ x → x ∉ P → h'.color x = h.color x
  /-- Every candidate without readers has been enrolled. -/
  enrolled : ∀ x ∈ h.live, x < i → h.color x = .purple → h.readers x = 0 → x ∈ P
  refcount : ∀ x, h'.refcount x + edgesInto h.children P x = h.refcount x

variable {h h' : Heap D} {external : HeapId → Nat} {P : Finset HeapId} {roots : List HeapId}
  {h'' : Heap D} {Q : Finset HeapId} {e : HeapEntry D}

section Discover

variable {i : Nat}

theorem Discovered.start (h : Heap D) : Discovered h 0 ∅ [] h where
  shape := .refl h
  live := empty_subset _
  closed := by simp
  roots_mem := by simp
  reach := by simp
  gray := by simp
  black := by simp
  ahead := fun _ _ _ _ => rfl
  enrolled := by simp
  refcount := by simp

theorem Discovered.gray_iff (hset : h.Settled) (hd : Discovered h i P roots h') {x : HeapId}
    (hx : x ∈ h.live) : h'.color x = .gray ↔ x ∈ P := by
  refine ⟨fun hg => ?_, hd.gray x⟩
  by_contra hP
  rcases lt_or_ge x i with hlt | hge
  · rw [hd.black x hx hlt hP] at hg
    contradiction
  · rw [hd.ahead x hx hge hP] at hg
    exact (hset x hx).1 hg

/-- The counts left have room for the edges out of what is not yet `gray`. -/
theorem Discovered.room (hset : h.Settled) (hacc : h.Accounted external)
    (hd : Discovered h i P roots h') : Room .gray (-1) h' := by
  intro x n hn
  have hfilter : h'.live.filter (h'.color · ≠ .gray) = h.live \ P := by
    ext y
    rw [Finset.mem_filter, mem_sdiff, hd.shape.live]
    exact and_congr_right fun hy => not_congr (hd.gray_iff hset hy)
  rw [hfilter, hd.shape.children] at hn
  have h1 := hd.refcount x
  have h2 := hacc x
  have h3 := edgesInto_sdiff h.children hd.live x
  omega

theorem Discovered.skip (hset : h.Settled) (hd : Discovered h i P roots h')
    (hi : i ∈ h.live → h'.color i ≠ .purple) : Discovered h (i + 1) P roots h' := by
  refine { hd with
    black := fun x hx hlt hP => ?_
    ahead := fun x hx hle hP => hd.ahead x hx (by omega) hP
    enrolled := fun x hx hlt hp hr => ?_ }
  · rcases eq_or_lt_of_le (le_of_lt_succ hlt) with rfl | hlt
    · have hcol := hd.ahead x hx le_rfl hP
      have hsx := hset x hx
      cases hc : h.color x <;> simp_all
    · exact hd.black x hx hlt hP
  · rcases eq_or_lt_of_le (le_of_lt_succ hlt) with rfl | hlt
    · by_contra hP
      exact hi hx (by rw [hd.ahead x hx le_rfl hP, hp])
    · exact hd.enrolled x hx hlt hp hr

/-- A candidate with active readers is taken off the list. -/
theorem Discovered.unroll (hd : Discovered h i P roots h')
    (he : h'.get? i = some e) (hpurple : e.color = .purple) (hreaders : 0 < e.readers) :
    Discovered h (i + 1) P roots (h'.setEntry i { e with color := .black }) := by
  have hiP : i ∉ P := fun hP => by
    have hg := hd.gray i hP
    rw [color_of_get? he, hpurple] at hg
    contradiction
  have hcolor : ∀ x, (h'.setEntry i { e with color := .black }).color x
      = if x = i then .black else h'.color x := color_setEntry he _
  have hne : ∀ x ∈ P, x ≠ i := fun x hx hxi => hiP (hxi ▸ hx)
  refine ⟨hd.shape.trans (.setEntry he rfl), hd.live, hd.closed, hd.roots_mem, hd.reach,
    fun x hx => ?_, fun x hx hlt hP => ?_, fun x hx hle hP => ?_, fun x hx hlt hp hr => ?_,
    fun x => ?_⟩
  · rw [hcolor, if_neg (hne x hx), hd.gray x hx]
  · rw [hcolor]
    split_ifs with hxi
    · rfl
    · exact hd.black x hx (lt_of_le_of_ne (le_of_lt_succ hlt) hxi) hP
  · rw [hcolor, if_neg (ne_of_gt hle), hd.ahead x hx (le_of_succ_le hle) hP]
  · rcases eq_or_lt_of_le (le_of_lt_succ hlt) with rfl | hlt
    · rw [← hd.shape.readers, readers_of_get? he] at hr
      omega
    · exact hd.enrolled x hx hlt hp hr
  · rw [← hd.refcount, refcount_setEntry_of_eq he { e with color := .black } x rfl]

/-- A root is found: what it reaches joins the candidates. -/
theorem Discovered.enrol (hset : h.Settled) (hd : Discovered h i P roots h')
    (hp : Painted .gray (-1) h' i Q h'') : Discovered h (i + 1) (P ∪ Q) (i :: roots) h'' := by
  have hQlive : Q ⊆ h.live := fun x hx => hd.shape.live ▸ (hp.fresh x hx).1
  have hdisj : Disjoint P Q := by
    rw [Finset.disjoint_left]
    exact fun x hxP hxQ => (hp.fresh x hxQ).2 (hd.gray x hxP)
  refine ⟨hd.shape.trans hp.shape, union_subset hd.live hQlive, ?_, ?_, ?_, ?_, ?_, ?_, ?_, ?_⟩
  · intro v hv w hw
    rw [mem_union] at hv ⊢
    rcases hv with hv | hv
    · exact .inl (hd.closed v hv w hw)
    have hw' : w ∈ h'.children v := hd.shape.children ▸ hw
    rcases hp.closed v hv w hw' with hQ | hg
    · exact .inr hQ
    · by_cases hwl : w ∈ h.live
      · exact .inl ((hd.gray_iff hset hwl).mp hg)
      · rw [color, get?_eq_none (by rwa [hd.shape.live])] at hg
        contradiction
  · intro r hr
    rw [mem_union]
    rcases mem_cons.mp hr with rfl | hr
    · exact .inr hp.root
    · exact .inl (hd.roots_mem r hr)
  · intro x hx
    rcases Finset.mem_union.mp hx with hx | hx
    · obtain ⟨r, hr, hrx⟩ := hd.reach x hx
      exact ⟨r, mem_cons_of_mem _ hr, hrx⟩
    · exact ⟨i, mem_cons_self, hd.shape.children ▸ hp.reach x hx⟩
  · intro x hx
    rw [hp.color]
    split_ifs with hQ
    · rfl
    · exact hd.gray x ((Finset.mem_union.mp hx).resolve_right hQ)
  · intro x hx hlt hPQ
    rw [mem_union, not_or] at hPQ
    have hne : x ≠ i := fun hxi => hPQ.2 (hxi ▸ hp.root)
    rw [hp.color, if_neg hPQ.2]
    exact hd.black x hx (lt_of_le_of_ne (le_of_lt_succ hlt) hne) hPQ.1
  · intro x hx hle hPQ
    rw [mem_union, not_or] at hPQ
    rw [hp.color, if_neg hPQ.2]
    exact hd.ahead x hx (by omega) hPQ.1
  · intro x hx hlt hpx hr
    rw [mem_union]
    rcases eq_or_lt_of_le (le_of_lt_succ hlt) with rfl | hlt
    · exact .inr hp.root
    · exact .inl (hd.enrolled x hx hlt hpx hr)
  · intro x
    have h1 := hd.refcount x
    have h2 := hp.refcount x
    rw [hd.shape.children] at h2
    rw [edgesInto_union _ hdisj]
    omega

/-- **Phase 1** over the slots from `i` on. -/
theorem discoverRoots_spec (hset : h.Settled) (hacc : h.Accounted external) : ∀ (n i : Nat)
    (h' : Heap D) (P : Finset HeapId) (roots : List HeapId), Discovered h i P roots h' →
    ∃ h'' P' roots', discoverRoots (List.range' i n) h' roots = .ok (h'', roots') ∧
      Discovered h (i + n) P' roots' h''
  | 0, _, h', P, roots, hd => ⟨h', P, roots, rfl, hd⟩
  | n + 1, i, h', P, roots, hd => by
    rw [List.range'_succ, discoverRoots, show i + (n + 1) = i + 1 + n by omega]
    cases he : h'.get? i with
    | none =>
      have hi : i ∉ h.live := fun hi => by
        rw [← hd.shape.live, mem_live, he] at hi
        simp at hi
      exact discoverRoots_spec hset hacc n (i + 1) h' P roots
        (hd.skip hset fun hi' => absurd hi' hi)
    | some e =>
      have hcolor := color_of_get? he
      have hlive : i ∈ h'.live := mem_live.mpr ⟨e, he⟩
      dsimp only
      split_ifs with hp hr
      · exact discoverRoots_spec hset hacc n (i + 1) h' P roots
          (hd.skip hset fun _ => by rwa [hcolor])
      · exact discoverRoots_spec hset hacc n (i + 1) _ P roots (hd.unroll he (not_not.mp hp) hr)
      have hclosed : ∀ v, ∀ w ∈ h'.children v, w ∈ h'.live := by
        rw [hd.shape.children, hd.shape.live]
        exact fun v w hw => hacc.closed hw
      obtain ⟨h'', Q, hrun, hpaint⟩ := mark_spec hclosed (hd.room hset hacc) hlive
        (by rw [hcolor, not_not.mp hp]; decide)
      rw [markGray, hrun]
      exact discoverRoots_spec hset hacc n (i + 1) h'' (P ∪ Q) (i :: roots) (hd.enrol hset hpaint)

end Discover

/-! ## Phase 2 -/

/-- What keeps a candidate alive: an external reference, a reader, or being outside the candidate
set. -/
def Anchor (h : Heap D) (external : HeapId → Nat) (P : Finset HeapId) (a : HeapId) : Prop :=
  0 < external a ∨ 0 < h.readers a ∨ a ∈ h.live ∧ a ∉ P

/-- An edge between two `white` entries. -/
def WhiteEdge (h : Heap D) (v w : HeapId) : Prop :=
  w ∈ h.children v ∧ h.color v = .white ∧ h.color w = .white

/-- **The invariant of phase 2.** -/
structure Scanning (h : Heap D) (external : HeapId → Nat) (P : Finset HeapId)
    (roots stack : List HeapId) (h' : Heap D) : Prop where
  shape : SameShape h h'
  stack_mem : ∀ s ∈ stack, s ∈ P
  outside : ∀ x ∈ h.live, x ∉ P → h'.color x = .black
  inside : ∀ x ∈ P, h'.color x ≠ .purple
  refcount : ∀ x, h'.refcount x
    = external x + edgesInto h.children (h.live.filter (h'.color · = .black)) x
  /-- What a resurrected entry refers to is resurrected too. -/
  closed : ∀ v ∈ P, h'.color v = .black → ∀ w ∈ h.children v, h'.color w = .black
  /-- Nothing is resurrected without a reason. -/
  alive : ∀ v ∈ P, h'.color v = .black → ReachFrom h.children (h.Anchor external P) v
  white : ∀ v ∈ P, h'.color v = .white → h'.refcount v = 0 ∧ h.readers v = 0
  whitePath : ∀ v ∈ P, h'.color v = .white →
    ∃ r ∈ roots, h'.color r = .white ∧ Relation.ReflTransGen h'.WhiteEdge r v
  /-- The `gray` entries on the stack are the roots and the children of `white` entries. -/
  stack_iff : ∀ s ∈ P, h'.color s = .gray →
    (s ∈ stack ↔ s ∈ roots ∨ ∃ w ∈ P, h'.color w = .white ∧ s ∈ h.children w)

section Scan

variable {stack : List HeapId}

theorem Scanning.start (hacc : h.Accounted external)
    (hd : Discovered h h.entries.len P roots h') : Scanning h external P roots roots h' := by
  have hout : ∀ x ∈ h.live, x ∉ P → h'.color x = .black := fun x hx hP =>
    hd.black x hx (lt_len_of_mem_live hx) hP
  have hfilter : h.live.filter (h'.color · = .black) = h.live \ P := by
    ext x
    rw [Finset.mem_filter, mem_sdiff]
    refine and_congr_right fun hx => ⟨fun hb hP => ?_, hout x hx⟩
    rw [hd.gray x hP] at hb
    contradiction
  have hgray : ∀ {c : CcColor} {Q : HeapId → Prop}, c ≠ .gray → ∀ x ∈ P, h'.color x = c → Q x :=
    fun hne x hx hc => absurd (hc.symm.trans (hd.gray x hx)) hne
  refine ⟨hd.shape, hd.roots_mem, hout, hgray (by decide), fun x => ?_, hgray (by decide),
    hgray (by decide), hgray (by decide), hgray (by decide), fun s hs hg => ⟨.inl, ?_⟩⟩
  · rw [hfilter]
    have h1 := hd.refcount x
    have h2 := hacc x
    have h3 := edgesInto_sdiff h.children hd.live x
    omega
  · rintro (hr | ⟨w, hw, hwhite, _⟩)
    · exact hr
    · exact hgray (Q := fun _ => s ∈ roots) (by decide) w hw hwhite

variable {ptr : HeapId}

theorem Scanning.drop (hs : Scanning h external P roots (ptr :: stack) h')
    (hptr : h'.color ptr ≠ .gray) : Scanning h external P roots stack h' := by
  refine { hs with
    stack_mem := fun s hmem => hs.stack_mem s (mem_cons_of_mem _ hmem)
    stack_iff := fun s hP hg => ?_ }
  rw [← hs.stack_iff s hP hg, mem_cons]
  exact ⟨.inr, fun hor => hor.resolve_left fun heq => hptr (heq ▸ hg)⟩

omit [HeapItem D] in
theorem pushGray_eq (h : Heap D) : ∀ (cs stack : List HeapId), (∀ x ∈ cs, x ∈ h.live) →
    h.pushGray cs stack = .ok ((cs.filter (h.color · = .gray)).reverse ++ stack)
  | [], _, _ => rfl
  | child :: rest, stack, hlive => by
    obtain ⟨e, he⟩ := mem_live.mp (hlive child mem_cons_self)
    rw [pushGray, get_of_get? he, filter_cons, color_of_get? he]
    have ih := pushGray_eq h rest (if e.color = .gray then child :: stack else stack)
      fun x hx => hlive x (mem_cons_of_mem _ hx)
    refine ih.trans ?_
    by_cases hg : e.color = .gray <;> simp [hg]

/-- An entry with neither count nor readers left is condemned. -/
theorem Scanning.condemn (hclosedP : ∀ v ∈ P, ∀ w ∈ h.children v, w ∈ P)
    (hs : Scanning h external P roots (ptr :: stack) h')
    (he : h'.get? ptr = some e) (hg : e.color = .gray) (hzero : e.refcount = 0 ∧ e.readers = 0) :
    Scanning h external P roots (((h.children ptr).filter fun x =>
        (h'.setEntry ptr { e with color := .white }).color x = .gray).reverse ++ stack)
      (h'.setEntry ptr { e with color := .white }) := by
  have hP : ptr ∈ P := hs.stack_mem ptr mem_cons_self
  have hgptr : h'.color ptr = .gray := (color_of_get? he).trans hg
  have hshape : SameShape h' (h'.setEntry ptr { e with color := .white }) := .setEntry he rfl
  have hcolor : ∀ x, (h'.setEntry ptr { e with color := .white }).color x
      = if x = ptr then .white else h'.color x := color_setEntry he _
  have hrefcount : ∀ x, (h'.setEntry ptr { e with color := .white }).refcount x = h'.refcount x :=
    fun x => refcount_setEntry_of_eq he _ x rfl
  generalize h'.setEntry ptr { e with color := .white } = h'' at hshape hcolor hrefcount
  -- the colours other than `gray` and `white` are as before
  have hblack : ∀ x, h''.color x = .black ↔ h'.color x = .black := by
    intro x
    rw [hcolor]
    split_ifs with hx
    · simp [hx, hgptr]
    · rfl
  have hwhite : ∀ x, h''.color x = .white ↔ x = ptr ∨ h'.color x = .white := by
    intro x
    rw [hcolor]
    split_ifs with hx <;> simp [hx]
  have hgray : ∀ x, h''.color x = .gray ↔ x ≠ ptr ∧ h'.color x = .gray := by
    intro x
    rw [hcolor]
    split_ifs with hx <;> simp [hx]
  have hedge : ∀ v w, h'.WhiteEdge v w → h''.WhiteEdge v w := by
    rintro v w ⟨hvw, hv, hw⟩
    exact ⟨hshape.children ▸ hvw, (hwhite v).mpr (.inr hv), (hwhite w).mpr (.inr hw)⟩
  refine ⟨hs.shape.trans hshape, ?_, ?_, ?_, ?_, ?_, ?_, ?_, ?_, ?_⟩
  · intro s hmem
    rcases mem_append.mp hmem with hmem | hmem
    · exact hclosedP ptr hP s (mem_filter.mp (mem_reverse.mp hmem)).1
    · exact hs.stack_mem s (mem_cons_of_mem _ hmem)
  · exact fun x hx hxP => (hblack x).mpr (hs.outside x hx hxP)
  · intro x hx
    rw [hcolor]
    split_ifs
    · decide
    · exact hs.inside x hx
  · intro x
    simp only [hrefcount, hs.refcount, hblack]
  · exact fun v hv hb w hw => (hblack w).mpr (hs.closed v hv ((hblack v).mp hb) w hw)
  · exact fun v hv hb => hs.alive v hv ((hblack v).mp hb)
  · intro v hv hw
    rw [hrefcount]
    rcases (hwhite v).mp hw with rfl | hw
    · rw [refcount_of_get? he, ← hs.shape.readers, readers_of_get? he]
      exact hzero
    · exact hs.white v hv hw
  · intro v hv hw
    rcases (hwhite v).mp hw with rfl | hw
    · rcases (hs.stack_iff v hP hgptr).mp mem_cons_self with hr | ⟨w, hwP, hww, hvw⟩
      · exact ⟨v, hr, (hwhite v).mpr (.inl rfl), .refl⟩
      obtain ⟨r, hr, hrw, hpath⟩ := hs.whitePath w hwP hww
      have hpath' := Relation.ReflTransGen.mono hedge _ _ hpath
      refine ⟨r, hr, (hwhite r).mpr (.inr hrw), hpath'.tail ⟨?_, ?_, ?_⟩⟩
      · rwa [(hs.shape.trans hshape).children]
      · exact (hwhite w).mpr (.inr hww)
      · exact (hwhite v).mpr (.inl rfl)
    · obtain ⟨r, hr, hrw, hpath⟩ := hs.whitePath v hv hw
      exact ⟨r, hr, (hwhite r).mpr (.inr hrw), Relation.ReflTransGen.mono hedge _ _ hpath⟩
  · intro s hsP hsg
    have hsg' := (hgray s).mp hsg
    have hold := hs.stack_iff s hsP hsg'.2
    rw [mem_cons] at hold
    rw [mem_append, mem_reverse, mem_filter]
    constructor
    · rintro (⟨hch, _⟩ | hmem)
      · exact .inr ⟨ptr, hP, (hwhite ptr).mpr (.inl rfl), hch⟩
      · rcases hold.mp (.inr hmem) with hr | ⟨w, hwP, hww, hsw⟩
        · exact .inl hr
        · exact .inr ⟨w, hwP, (hwhite w).mpr (.inr hww), hsw⟩
    rintro (hr | ⟨w, hwP, hww, hsw⟩)
    · exact .inr ((hold.mpr (.inl hr)).resolve_left hsg'.1)
    · rcases (hwhite w).mp hww with rfl | hww
      · exact .inl ⟨hsw, by simpa using hsg⟩
      · exact .inr ((hold.mpr (.inr ⟨w, hwP, hww, hsw⟩)).resolve_left hsg'.1)

/-- An entry with a count or a reader left is alive, and so is what it reaches. -/
theorem Scanning.resurrect (hclosedP : ∀ v ∈ P, ∀ w ∈ h.children v, w ∈ P)
    (hs : Scanning h external P roots (ptr :: stack) h')
    (hkeep : h'.refcount ptr ≠ 0 ∨ h'.readers ptr ≠ 0) (hp : Painted .black 1 h' ptr Q h'') :
    Scanning h external P roots stack h'' := by
  have hP : ptr ∈ P := hs.stack_mem ptr mem_cons_self
  have hQlive : ∀ x ∈ Q, x ∈ h.live := fun x hx => hs.shape.live ▸ (hp.fresh x hx).1
  have hQP : ∀ x ∈ Q, x ∈ P := fun x hx =>
    Reach.mem_of_closed hclosedP hP (hs.shape.children ▸ hp.reach x hx)
  have hQclosed : ∀ v ∈ Q, ∀ w ∈ h.children v, w ∈ Q ∨ h'.color w = .black := fun v hv w hw =>
    hp.closed v hv w (hs.shape.children ▸ hw)
  -- colours away from `Q` are as before, and nothing in `Q` keeps a colour other than `black`
  have hkept : ∀ {x} {c : CcColor}, h''.color x = c → c ≠ .black → x ∉ Q ∧ h'.color x = c := by
    intro x c hc hne
    rw [hp.color] at hc
    split_ifs at hc with hQ
    · exact absurd hc.symm hne
    · exact ⟨hQ, hc⟩
  have hup : ∀ {v w} {c : CcColor}, w ∈ h.children v → h''.color w = c → c ≠ .black → v ∉ Q := by
    intro v w c hw hc hne hv
    obtain ⟨hwQ, hold⟩ := hkept hc hne
    exact hne (hold.symm.trans ((hQclosed v hv w hw).resolve_left hwQ))
  have hfilter : h.live.filter (h''.color · = .black)
      = h.live.filter (h'.color · = .black) ∪ Q := by
    ext x
    rw [Finset.mem_filter, mem_union, Finset.mem_filter, hp.color]
    split_ifs with hQ
    · simp [hQ, hQlive x hQ]
    · simp [hQ]
  have hdisj : Disjoint (h.live.filter (h'.color · = .black)) Q := by
    rw [Finset.disjoint_left]
    exact fun x hx hxQ => (hp.fresh x hxQ).2 (Finset.mem_filter.mp hx).2
  have hrefcount : ∀ x, h''.refcount x = h'.refcount x + edgesInto h.children Q x := by
    intro x
    have h1 := hp.refcount x
    rw [hs.shape.children] at h1
    omega
  -- the reason: an external reference, a reader, or an edge from an entry known to be alive
  have hanchor : ReachFrom h.children (h.Anchor external P) ptr := by
    rcases hkeep with hcount | hread
    · rw [hs.refcount] at hcount
      rcases Nat.eq_zero_or_pos (external ptr) with hext | hext
      · have hpos : 0 < edgesInto h.children (h.live.filter (h'.color · = .black)) ptr := by omega
        obtain ⟨v, hv, hvp⟩ := (edgesInto_pos_iff _).mp hpos
        rw [Finset.mem_filter] at hv
        by_cases hvP : v ∈ P
        · exact (hs.alive v hvP hv.2).step hvp
        · exact (ReachFrom.base (.inr (.inr ⟨hv.1, hvP⟩))).step hvp
      · exact .base (.inl hext)
    · rw [hs.shape.readers] at hread
      exact .base (.inr (.inl (pos_of_ne_zero hread)))
  refine ⟨hs.shape.trans hp.shape, ?_, ?_, ?_, ?_, ?_, ?_, ?_, ?_, ?_⟩
  · exact fun s hmem => hs.stack_mem s (mem_cons_of_mem _ hmem)
  · intro x hx hxP
    rw [hp.color, if_neg fun hQ => hxP (hQP x hQ)]
    exact hs.outside x hx hxP
  · intro x hx hpurple
    exact hs.inside x hx (hkept hpurple (by decide)).2
  · intro x
    rw [hrefcount, hs.refcount, hfilter, edgesInto_union _ hdisj, add_assoc]
  · intro v hv hb w hw
    rw [hp.color] at hb ⊢
    split_ifs with hwQ
    · rfl
    · by_cases hvQ : v ∈ Q
      · exact (hQclosed v hvQ w hw).resolve_left hwQ
      · rw [if_neg hvQ] at hb
        exact hs.closed v hv hb w hw
  · intro v hv hb
    rw [hp.color] at hb
    by_cases hvQ : v ∈ Q
    · exact hanchor.trans (hs.shape.children ▸ hp.reach v hvQ)
    · rw [if_neg hvQ] at hb
      exact hs.alive v hv hb
  · intro v hv hw
    have hno : edgesInto h.children Q v = 0 :=
      (edgesInto_eq_zero_iff _).mpr fun q hq hqv => hup hqv hw (by decide) hq
    rw [hrefcount, hno]
    exact hs.white v hv (hkept hw (by decide)).2
  · intro v hv hw
    obtain ⟨r, hr, hrw, hpath⟩ := hs.whitePath v hv (hkept hw (by decide)).2
    -- a path that left the painted set cannot have come through it
    have hpath' : ∀ x, Relation.ReflTransGen h'.WhiteEdge r x → h''.color x = .white →
        h''.color r = .white ∧ Relation.ReflTransGen h''.WhiteEdge r x := by
      intro x hrx
      induction hrx with
      | refl => exact fun hx => ⟨hx, .refl⟩
      | @tail y z hry hyz ih =>
        intro hz
        have hyz' : z ∈ h.children y := hs.shape.children ▸ hyz.1
        have hy : h''.color y = .white := by
          rw [hp.color, if_neg (hup hyz' hz (by decide)), hyz.2.1]
        obtain ⟨hr', hpath'⟩ := ih hy
        exact ⟨hr', hpath'.tail ⟨hp.shape.children ▸ hyz.1, hy, hz⟩⟩
    obtain ⟨hr', hp'⟩ := hpath' v hpath hw
    exact ⟨r, hr, hr', hp'⟩
  · intro s hsP hsg
    obtain ⟨hsQ, hsg'⟩ := hkept hsg (by decide)
    have hold := hs.stack_iff s hsP hsg'
    have hne : s ≠ ptr := fun hsp => hsQ (hsp ▸ hp.root)
    rw [mem_cons, or_iff_right hne] at hold
    rw [hold]
    refine or_congr_right ⟨?_, ?_⟩
    · rintro ⟨w, hwP, hww, hsw⟩
      refine ⟨w, hwP, ?_, hsw⟩
      rw [hp.color, if_neg (hup hsw hsg (by decide)), hww]
    · rintro ⟨w, hwP, hww, hsw⟩
      exact ⟨w, hwP, (hkept hww (by decide)).2, hsw⟩

/-- What phase 2 leaves behind. -/
structure Scanned (h : Heap D) (external : HeapId → Nat) (P : Finset HeapId)
    (roots : List HeapId) (h' : Heap D) : Prop extends
    Scanning h external P roots [] h' where
  decided : ∀ x ∈ P, h'.color x = .white ∨ h'.color x = .black

/-- With the stack empty every candidate has been decided. -/
theorem Scanning.finish (hd : ∀ x ∈ P, ∃ r ∈ roots, Reach h.children r x)
    (hroots : ∀ r ∈ roots, r ∈ P) (hclosedP : ∀ v ∈ P, ∀ w ∈ h.children v, w ∈ P)
    (hs : Scanning h external P roots [] h') : Scanned h external P roots h' := by
  refine { hs with decided := fun x hx => ?_ }
  have hnot : ∀ y ∈ P, h'.color y ≠ .gray → h'.color y = .white ∨ h'.color y = .black := by
    intro y hy hg
    have hp := hs.inside y hy
    cases hc : h'.color y <;> simp_all
  obtain ⟨r, hr, hrx⟩ := hd x hx
  -- along the path from the root: a decided entry has only decided children
  refine (Reach.mem_of_closed
    (S := fun y => y ∈ P ∧ (h'.color y = .white ∨ h'.color y = .black)) ?_ ?_ hrx).2
  · rintro v ⟨hvP, hv⟩ w hw
    have hwP := hclosedP v hvP w hw
    refine ⟨hwP, ?_⟩
    rcases hv with hv | hv
    · refine hnot w hwP fun hg => ?_
      exact absurd ((hs.stack_iff w hwP hg).mpr (.inr ⟨v, hvP, hv, hw⟩)) not_mem_nil
    · exact .inr (hs.closed v hvP hv w hw)
  · refine ⟨hroots r hr, hnot r (hroots r hr) fun hg => ?_⟩
    exact absurd ((hs.stack_iff r (hroots r hr) hg).mpr (.inl hr)) not_mem_nil

/-- The edges that the scan may still have to walk. -/
def grayWork (h h' : Heap D) : Nat :=
  ∑ id ∈ h.live.filter (h'.color · = .gray), (h.children id).length

theorem grayWork_le_edgeCount (h h' : Heap D) : grayWork h h' ≤ h.edgeCount :=
  sum_le_sum_of_subset (filter_subset _ _)

theorem grayWork_mono {h h' : Heap D} (hgray : ∀ x, h''.color x = .gray → h'.color x = .gray) :
    grayWork h h'' ≤ grayWork h h' :=
  sum_le_sum_of_subset (monotone_filter_right _ fun x _ hx => hgray x hx)

theorem grayWork_lt {h h' : Heap D} (hlive : ptr ∈ h.live) (hptr : h'.color ptr = .gray)
    (hgray : ∀ x, h''.color x = .gray → x ≠ ptr ∧ h'.color x = .gray) :
    grayWork h h'' + (h.children ptr).length ≤ grayWork h h' := by
  have hmem : ptr ∈ h.live.filter (h'.color · = .gray) := Finset.mem_filter.mpr ⟨hlive, hptr⟩
  have hsub : h.live.filter (h''.color · = .gray) ⊆
      (h.live.filter (h'.color · = .gray)).erase ptr := by
    intro x hx
    rw [Finset.mem_filter] at hx
    rw [mem_erase, Finset.mem_filter]
    exact ⟨(hgray x hx.2).1, hx.1, (hgray x hx.2).2⟩
  calc grayWork h h'' + (h.children ptr).length
      ≤ ∑ id ∈ (h.live.filter (h'.color · = .gray)).erase ptr, (h.children id).length
          + (h.children ptr).length := Nat.add_le_add_right (sum_le_sum_of_subset hsub) _
    _ = grayWork h h' := sum_erase_add _ _ hmem

/-- **Phase 2.** -/
theorem scan_spec (hclosed : ∀ v, ∀ w ∈ h.children v, w ∈ h.live) (hPlive : P ⊆ h.live)
    (hclosedP : ∀ v ∈ P, ∀ w ∈ h.children v, w ∈ P) : ∀ (fuel : Nat) (h' : Heap D)
    (stack : List HeapId), Scanning h external P roots stack h' →
    stack.length + grayWork h h' ≤ fuel →
    ∃ h'', scan fuel h' stack = .ok h'' ∧ Scanning h external P roots [] h''
  | fuel, h', [], hs, _ => ⟨h', by cases fuel <;> rfl, hs⟩
  | 0, h', ptr :: stack, hs, hfuel => by simp at hfuel
  | fuel + 1, h', ptr :: stack, hs, hfuel => by
    have hP : ptr ∈ P := hs.stack_mem ptr mem_cons_self
    have hlive : ptr ∈ h'.live := by
      rw [hs.shape.live]
      exact hPlive hP
    obtain ⟨e, he⟩ := mem_live.mp hlive
    rw [length_cons] at hfuel
    rw [scan, get_of_get? he]
    simp only [bind, Except.bind]
    split_ifs with hg hzero
    · exact scan_spec hclosed hPlive hclosedP fuel h' stack (hs.drop (by rwa [color_of_get? he]))
        (by omega)
    · have hs' := hs.condemn hclosedP he (not_not.mp hg) hzero
      have hshape : SameShape h' (h'.setEntry ptr { e with color := .white }) := .setEntry he rfl
      have hcs : forEachChildId e.data = h.children ptr := by
        rw [← hs.shape.children, children_of_get? he]
      have hcslive : ∀ x ∈ h.children ptr,
          x ∈ (h'.setEntry ptr { e with color := .white }).live := by
        rw [hshape.live, hs.shape.live]
        exact hclosed ptr
      rw [hcs, pushGray_eq _ _ _ hcslive]
      refine scan_spec hclosed hPlive hclosedP fuel _ _ hs' ?_
      have hwork : grayWork h (h'.setEntry ptr { e with color := .white })
          + (h.children ptr).length ≤ grayWork h h' := by
        refine grayWork_lt (hPlive hP) ((color_of_get? he).trans (not_not.mp hg)) fun x hx => ?_
        rw [color_setEntry he] at hx
        split_ifs at hx with hxp
        exact ⟨hxp, hx⟩
      have hlen := length_filter_le
        (fun x => (h'.setEntry ptr { e with color := .white }).color x = .gray) (h.children ptr)
      rw [length_append, length_reverse]
      omega
    · obtain ⟨h'', Q, hrun, hp⟩ := mark_spec (c := .black) (δ := 1)
        (by rw [hs.shape.children, hs.shape.live]; exact hclosed)
        (fun x n _ => by omega) hlive (by rw [color_of_get? he, not_not.mp hg]; decide)
      rw [markBlack, hrun]
      have hkeep : h'.refcount ptr ≠ 0 ∨ h'.readers ptr ≠ 0 := by
        rw [refcount_of_get? he, readers_of_get? he]
        exact not_and_or.mp hzero
      refine scan_spec hclosed hPlive hclosedP fuel h'' stack (hs.resurrect hclosedP hkeep hp) ?_
      have hwork : grayWork h h'' ≤ grayWork h h' := grayWork_mono fun x hx => by
        rw [hp.color] at hx
        split_ifs at hx
        exact hx
      omega

end Scan

end Heap

end Monty
