import Cppward.Proofs.Analysis.Rewriting
import Cppward.Proofs.Analysis.Tables
import Cppward.Proofs.Analysis.Typing

namespace Cppward

open Analysis List

/-!
# Labels stay in the range of the tables

However the safety checks rewrite a tree, the tables have a place for every label in it
(`Analysis.bounds_checkSafetyTo`).
-/

namespace Node

/-- All labels in the tree are smaller than `k`. -/
def Below (k : Nat) (n : Node) : Prop := ∀ m ∈ n.walk, m.id < k

variable {k k' : Nat} {n : Node}

theorem below_iff_fields : n.Below k ↔ n.id < k ∧ (∀ f ∈ n.func, f.Below k) ∧
    (∀ a ∈ n.args, a.Below k) ∧ ∀ t ∈ n.type, t.Below k := forall_mem_walk_iff

theorem Below.part {a : Node} (h : n.Below k) (ha : a ∈ n.parts) : a.Below k :=
  fun m hm => h m (mem_walk_of_mem_parts ha hm)

theorem below_iff_labels (hk : 0 < k) : n.Below k ↔ ∀ l ∈ n.labels, l < k := by
  constructor
  · intro h l hl
    obtain ⟨-, m, hm, rfl⟩ := mem_labels.mp hl
    exact h m hm
  · intro h m hm
    by_cases hid : m.id = 0
    · rwa [hid]
    · exact h _ (mem_labels.mpr ⟨hid, m, hm, rfl⟩)

theorem below_default (hk : 0 < k) : (default : Node).Below k :=
  below_iff_fields.mpr ⟨hk, nofun, nofun, nofun⟩

theorem Below.mono (h : n.Below k) (hle : k ≤ k') : n.Below k' :=
  fun m hm => Nat.lt_of_lt_of_le (h m hm) hle

theorem below_replacePart {part : Node} (h : n.Below k) (hpart : part.Below k) :
    (n.replacePart part).Below k := by
  obtain ⟨hid, hfunc, hargs, htype⟩ := below_iff_fields.mp h
  have hswap : ∀ m : Node, m.Below k → (if m.id == part.id then part else m).Below k := by
    intro m hm
    split
    · exact hpart
    · exact hm
  refine below_iff_fields.mpr ⟨hid, ?_, ?_, ?_⟩
  · exact Option.forall_mem_map.mpr fun f hf => hswap f (hfunc f hf)
  · exact forall_mem_map.mpr fun a ha => hswap a (hargs a ha)
  · exact Option.forall_mem_map.mpr fun t ht => hswap t (htype t ht)

theorem copy_eq (n : Node) : n.copy =
    if n.isIdent then n
    else { n with kind := n.kind.unmarked, func := n.func.map copy, args := n.args.map copy
                  type := none } := by
  have hlist : ∀ ns : List Node, copyList ns = ns.map copy :=
    eq_map rfl fun _ _ => rfl
  have hoption : ∀ o : Option Node, copyOption o = o.map copy := by
    intro o
    cases o <;> rfl
  obtain ⟨info, kind, func, args, type⟩ := n
  cases kind <;> simp [copy, hlist, hoption, isIdent, name?]

theorem unlabel_eq (n : Node) : n.unlabel =
    { n with info := { n.info with id := 0 }, func := n.func.map unlabel
             args := n.args.map unlabel } := by
  have hlist : ∀ ns : List Node, unlabelList ns = ns.map unlabel :=
    eq_map rfl fun _ _ => rfl
  have hoption : ∀ o : Option Node, unlabelOption o = o.map unlabel := by
    intro o
    cases o <;> rfl
  obtain ⟨info, kind, func, args, type⟩ := n
  rw [unlabel, hlist, hoption]

theorem id_copy {P : Nat → Prop} (h : ∀ m ∈ n.walk, P m.id) : ∀ m ∈ n.copy.walk, P m.id := by
  induction n using Node.induction with
  | step n ihfunc ihargs _ =>
    obtain ⟨hid, hfunc, hargs, _⟩ := forall_mem_walk_iff.mp h
    rw [copy_eq]
    split
    · exact h
    · refine forall_mem_walk_iff.mpr ⟨hid, ?_, ?_, ?_⟩
      · exact Option.forall_mem_map.mpr fun f hf => ihfunc f hf (hfunc f hf)
      · exact forall_mem_map.mpr fun a ha => ihargs a ha (hargs a ha)
      · rintro _ ⟨⟩

theorem id_unlabel {P : Nat → Prop} (hzero : P 0) (h : ∀ m ∈ n.walk, P m.id) :
    ∀ m ∈ n.unlabel.walk, P m.id := by
  induction n using Node.induction with
  | step n ihfunc ihargs _ =>
    obtain ⟨_, hfunc, hargs, htype⟩ := forall_mem_walk_iff.mp h
    rw [unlabel_eq]
    refine forall_mem_walk_iff.mpr ⟨hzero, ?_, ?_, htype⟩
    · exact Option.forall_mem_map.mpr fun f hf => ihfunc f hf (hfunc f hf)
    · exact forall_mem_map.mpr fun a ha => ihargs a ha (hargs a ha)

theorem below_copy (h : n.Below k) : n.copy.Below k := id_copy (P := (· < k)) h

theorem below_unlabel (hk : 0 < k) (h : n.Below k) : n.unlabel.Below k :=
  id_unlabel (P := (· < k)) hk h

theorem below_label (hk : 0 < k) (h : n.Below k) : (n.label k).1.Below (n.label k).2 := by
  intro m hm
  have hlabels := labels_label n k hk
  have hmem := mem_labels.mpr ⟨id_ne_zero_of_mem_walk_label n k hk m hm, m, hm, rfl⟩
  rcases hlabels.mem hmem with hold | hnew
  · obtain ⟨_, m', hm', hid⟩ := mem_labels.mp hold
    have := h m' hm'
    have := hlabels.1
    omega
  · exact hnew.2

theorem below_unsafeBranch {statements : List Node} (hk : 0 < k)
    (h : ∀ a ∈ statements, a.Below k) : (unsafeBranch statements).Below k := by
  simpa [Below, unsafeBranch, ofCall, ofBlock, ofDigits, ident, forall_mem_walk_make, id_make, hk]
    using h

theorem below_banReferences {container copy : Node} (hk : 0 < k) (hcontainer : container.Below k)
    (hcopy : copy.Below k) : (banReferences container copy).Below k := by
  simpa [Below, banReferences, ofCall, ofBlock, ofBinary, ofUnary, ident, forall_mem_walk_make,
    id_make, hk] using And.intro hcopy hcontainer

end Node

namespace Analysis

open Node

variable {k : Nat} {n : Node}

/-! ### Recording types -/

theorem below_ofSpecifiers? (hk : 0 < k) {ns : List Node} (h : ∀ a ∈ ns, a.Below k) :
    ∀ t ∈ ofSpecifiers? ns, t.Below k := by
  simp only [below_iff_labels hk] at h ⊢
  exact forall_mem_ofSpecifiers? (labels_ofSpecifiers? ns) h

theorem below_recordParts {m : Node} (h : m.Below k)
    (hparts : ∀ a ∈ m.evaluated, (declareTypes a).Below k) : (recordParts m).Below k := by
  obtain ⟨hid, -, -, htype⟩ := below_iff_fields.mp h
  refine below_iff_fields.mpr ⟨hid, ?_, ?_, htype⟩
  · exact Option.forall_mem_map.mpr fun f hf => hparts f (mem_append_left _ (Option.mem_toList.mpr hf))
  · exact forall_mem_map.mpr fun a ha => hparts a (mem_append_right _ ha)

theorem below_declareTypes (hk : 0 < k) (n : Node) (h : n.Below k) : (declareTypes n).Below k := by
  have hinner {m a : Node} (hm : m.Below k) (ha : a ∈ m.evaluated) : a.Below k :=
    hm.part (mem_parts_of_mem_evaluated ha)
  induction n using colonInduction with
  | plain n hcolon ih =>
    rw [declareTypes_of_ne hcolon]
    exact below_recordParts h fun a ha => ih a ha (hinner h ha)
  | bare n hcolon hargs => rwa [declareTypes_of_bare hcolon hargs]
  | colon n lhs types hcolon hargs ihlhs ihtypes =>
    have hpart : ∀ a ∈ lhs :: types, a.Below k := fun a ha => h.part (arg_mem_parts (hargs ▸ ha))
    have hlhs := hpart lhs mem_cons_self
    obtain ⟨hid, hfunc, hrest, -⟩ :=
      below_iff_fields.mp (below_recordParts hlhs fun a ha => ihlhs a ha (hinner hlhs ha))
    rw [declareTypes_of_colon hcolon hargs]
    refine below_iff_fields.mpr ⟨hid, hfunc, hrest, below_ofSpecifiers? hk (forall_mem_map.mpr ?_)⟩
    intro s hs
    obtain ⟨b, hb, hs'⟩ := mem_flatMap.mp hs
    have hbelow : s.Below k := fun m hm =>
      hpart b (mem_cons_of_mem _ hb) m (mem_walk_trans (mem_specifiers hs').1 hm)
    exact below_recordParts hbelow fun a ha => ihtypes s hs a ha (hinner hbelow ha)

/-! ### Tables -/

namespace Program

/-- The labels that the tables have a place for are below this. -/
def limit (p : Program) : Nat := max 1 p.nodes.size

theorem limit_pos (p : Program) : 0 < p.limit := Nat.le_max_left 1 p.nodes.size

/-- The nodes of the table have only labels that it has a place for. -/
def Bounded (p : Program) : Prop := ∀ (l : Nat) (e : Node), p.nodes[l]? = some e → e.Below p.limit

variable {p q : Program} {r : Node}

theorem Bounded.congr (h : p.Bounded) (hnodes : q.nodes = p.nodes) : q.Bounded := by
  rw [Bounded, limit, hnodes]
  exact h

theorem limit_set (p : Program) (n : Node) :
    limit { p with nodes := p.nodes.setIfInBounds n.id n } = p.limit := by
  rw [limit, limit, Array.size_setIfInBounds]

theorem eq_or_of_setIfInBounds {table : Array Node} {i l : Nat} {n e : Node}
    (h : (table.setIfInBounds i n)[l]? = some e) : e = n ∨ table[l]? = some e := by
  rw [Array.getElem?_setIfInBounds] at h
  split at h
  · split at h
    · exact .inl (Option.some.inj h).symm
    · cases h
  · exact .inr h

theorem Bounded.set (h : p.Bounded) (hn : n.Below p.limit) :
    Bounded { p with nodes := p.nodes.setIfInBounds n.id n } := by
  intro l e he
  rw [limit_set]
  rcases eq_or_of_setIfInBounds he with rfl | he
  · exact hn
  · exact h l e he

theorem Bounded.node? (h : p.Bounded) {l : Nat} {e : Node} (he : p.node? l = some e) :
    e.Below p.limit := by
  rw [Program.node?] at he
  split at he
  · cases he
  · exact h l e he

theorem Bounded.current (h : p.Bounded) (hn : n.Below p.limit) : (p.current n).Below p.limit := by
  rw [Program.current]
  cases he : p.node? n.id with
  | none => exact hn
  | some e => exact h.node? he

theorem bounded_propagate (fuel : Nat) : ∀ {p : Program} {part : Node}, p.Bounded →
    part.Below p.limit →
      (propagate fuel part p).Bounded ∧ (propagate fuel part p).nodes.size = p.nodes.size ∧
        (propagate fuel part p).root = p.root := by
  induction fuel with
  | zero => exact fun h _ => ⟨h, rfl, rfl⟩
  | succ fuel ih =>
    intro p part h hpart
    rw [propagate]
    split
    · exact ⟨h, rfl, rfl⟩
    · rename_i holder hholder
      obtain ⟨l, _, hl⟩ := Option.bind_eq_some_iff.mp hholder
      have hnew := below_replacePart (h.node? hl) hpart
      have hset := h.set hnew
      obtain ⟨hbounded, hsize, hroot⟩ := ih hset (limit_set p _ ▸ hnew)
      exact ⟨hbounded, hsize.trans Array.size_setIfInBounds, hroot⟩

end Program

open Stateful Program

variable {p q : Program} {r : Node}

/-- A run that starts within bounds ends within bounds, in tables that are no smaller. -/
structure Bounds (p : Program) (r : Node) (q : Program) : Prop where
  bounded : q.Bounded
  size : p.nodes.size ≤ q.nodes.size
  root : q.root = p.root
  below : r.Below q.limit

theorem bounds_update (h : p.Bounded) (hn : n.Below p.limit) : Bounds p n (p.update n) := by
  rw [update]
  split
  · exact ⟨h, Nat.le_refl _, rfl, hn⟩
  · obtain ⟨hbounded, hsize, hroot⟩ :=
      bounded_propagate p.nodes.size (h.set hn) (limit_set p n ▸ hn)
    have hsize := hsize.trans Array.size_setIfInBounds
    exact ⟨hbounded, hsize.ge, hroot, by rwa [limit, hsize]⟩

theorem size_nodes_adopt (tree : Node) :
    (p.adopt tree).2.nodes.size = (tree.label p.limit).2 := by
  have hle : p.limit ≤ (tree.label p.limit).2 := (labels_label tree p.limit p.limit_pos).1
  have hfold : ∀ (ms : List Node) (table : Array Node),
      (ms.foldl (fun table n => if n.id < p.nodes.size then table else table.setIfInBounds n.id n)
        table).size = table.size := by
    intro ms
    induction ms with
    | nil => exact fun _ => rfl
    | cons m ms ih =>
      intro table
      rw [foldl_cons, ih]
      split
      · rfl
      · exact Array.size_setIfInBounds
  refine (hfold _ _).trans ?_
  rw [Array.size_append, Array.size_replicate]
  have := Nat.le_max_right 1 p.nodes.size
  have : p.nodes.size ≤ (tree.label p.limit).2 := Nat.le_trans this hle
  exact Nat.add_sub_cancel' this

/-- Adopting a tree stays within bounds. -/
theorem bounds_adopt {tree : Node} (h : p.Bounded) (htree : tree.Below p.limit) :
    Bounds p (p.adopt tree).1 (p.adopt tree).2 := by
  have hsize := size_nodes_adopt (p := p) tree
  have hgrow : p.limit ≤ (tree.label p.limit).2 := (labels_label tree p.limit p.limit_pos).1
  have hlimit : (p.adopt tree).2.limit = (tree.label p.limit).2 := by
    rw [limit, hsize]
    exact Nat.max_eq_right (Nat.le_trans p.limit_pos hgrow)
  have hnew := below_label p.limit_pos htree
  refine ⟨?_, ?_, rfl, by rw [hlimit]; exact hnew⟩
  · -- every entry is old, a place that is still free, or a node of the new tree
    have hfold : ∀ (ms : List Node) (table : Array Node),
        (∀ m ∈ ms, m.Below (tree.label p.limit).2) →
        (∀ (l : Nat) (e : Node), table[l]? = some e → e.Below (tree.label p.limit).2) →
        ∀ (l : Nat) (e : Node), (ms.foldl (fun table n => if n.id < p.nodes.size then table
          else table.setIfInBounds n.id n) table)[l]? = some e → e.Below (tree.label p.limit).2 := by
      intro ms
      induction ms with
      | nil => exact fun _ _ htable => htable
      | cons m ms ih =>
        intro table hms htable
        rw [forall_mem_cons] at hms
        refine ih _ hms.2 fun l e he => ?_
        dsimp only at he
        split at he
        · exact htable l e he
        · rcases eq_or_of_setIfInBounds he with rfl | he
          · exact hms.1
          · exact htable l e he
    intro l e he
    rw [hlimit]
    refine hfold _ _ (fun m hm c hc => hnew c (mem_walk_trans hm hc)) (fun l e he => ?_) l e he
    rw [Array.getElem?_append] at he
    split at he
    · exact (h l e he).mono hgrow
    · rw [Array.getElem?_replicate] at he
      split at he
      · cases he
        exact below_default (Nat.lt_of_lt_of_le p.limit_pos hgrow)
      · cases he
  · rw [hsize]
    exact Nat.le_trans (Nat.le_max_right 1 _) hgrow

/-! ### The safety checks -/

theorem Program.limit_mono (h : p.nodes.size ≤ q.nodes.size) : p.limit ≤ q.limit :=
  max_le_max (Nat.le_refl 1) h

theorem Bounds.trans {p' : Program} {r' : Node} (h : Bounds p r p') (h' : Bounds p' r' q) :
    Bounds p r' q :=
  ⟨h'.bounded, Nat.le_trans h.size h'.size, h'.root.trans h.root, h'.below⟩

/-- Wrapping what a loop iterates over stays within bounds. -/
theorem bounds_wrapIterable {head target iterable : Node} (h : p.Bounded)
    (hhead : head.Below p.limit) (hargs : head.args = [target, iterable])
    (hrun : (wrapIterable head target iterable).run p = .ok (r, q)) : Bounds p r q := by
  obtain ⟨copy, p₁, wrapped, p₂, hcopied, hbanned, rfl, rfl⟩ := wrapIterable_eq_ok hrun
  obtain ⟨hid, hfunc, hheadargs, htype⟩ := below_iff_fields.mp hhead
  rw [hargs, forall_mem_cons, forall_mem_singleton] at hheadargs
  obtain ⟨htarget, hiterable⟩ := hheadargs
  have hcopy : Bounds p copy p₁ := by
    have hadopt := bounds_adopt h (below_unlabel p.limit_pos (below_copy hiterable))
    rwa [hcopied] at hadopt
  have hwrapped : Bounds p₁ wrapped p₂ := by
    have hadopt := bounds_adopt hcopy.bounded (below_banReferences p₁.limit_pos
      (hiterable.mono (limit_mono hcopy.size)) hcopy.below)
    rwa [hbanned] at hadopt
  have hboth := hcopy.trans hwrapped
  have hlimit := limit_mono hboth.size
  -- links between nodes do not touch the table of nodes
  have hlinked : Bounds p wrapped (linkWrapped p₂ iterable copy wrapped) := by
    refine ⟨hboth.bounded.congr (nodes_linkWrapped ..), ?_, ?_, ?_⟩
    · rw [nodes_linkWrapped]
      exact hboth.size
    · rw [root_linkWrapped]
      exact hboth.root
    · rw [limit, nodes_linkWrapped]
      exact hboth.below
  refine hlinked.trans (bounds_update hlinked.bounded ?_)
  rw [limit, nodes_linkWrapped]
  refine below_iff_fields.mpr ⟨Nat.lt_of_lt_of_le hid hlimit, fun f hf => (hfunc f hf).mono hlimit,
    ?_, fun t ht => (htype t ht).mono hlimit⟩
  exact forall_mem_cons.mpr
    ⟨htarget.mono hlimit, forall_mem_singleton.mpr hboth.below⟩

theorem bounds_mapM {f : Node → Build Node} {ns rs : List Node}
    (hf : ∀ n ∈ ns, ∀ {p r q}, p.Bounded → n.Below p.limit → (f n).run p = .ok (r, q) →
      Bounds p r q)
    (h : p.Bounded) (hns : ∀ n ∈ ns, n.Below p.limit) (hrun : (ns.mapM f).run p = .ok (rs, q)) :
    q.Bounded ∧ p.nodes.size ≤ q.nodes.size ∧ q.root = p.root ∧ ∀ r ∈ rs, r.Below q.limit := by
  induction ns generalizing p rs with
  | nil =>
    obtain ⟨rfl, rfl⟩ := mapM_nil_eq_ok.mp hrun
    exact ⟨h, Nat.le_refl _, rfl, fun r hr => by cases hr⟩
  | cons n ns ih =>
    rw [forall_mem_cons] at hf hns
    obtain ⟨r, p', rs', hfirst, hrest, rfl⟩ := mapM_cons_eq_ok.mp hrun
    have hn := hf.1 h hns.1 hfirst
    obtain ⟨hbounded, hsize, hroot, hbelow⟩ := ih hf.2 hn.bounded
      (fun m hm => (hns.2 m hm).mono (limit_mono hn.size)) hrest
    refine ⟨hbounded, Nat.le_trans hn.size hsize, hroot.trans hn.root, ?_⟩
    exact forall_mem_cons.mpr ⟨hn.below.mono (limit_mono hsize), hbelow⟩

theorem bounds_expandUnsafe (h : p.Bounded) (hn : n.Below p.limit)
    (hrun : (expandUnsafe n).run p = .ok (r, q)) : Bounds p r q := by
  rcases expandUnsafe_cases hrun with ⟨rfl, rfl⟩ | ⟨_, arg, hargs, hadopt⟩
  · exact ⟨h, Nat.le_refl _, rfl, hn⟩
  · have harg : arg.Below p.limit := (below_iff_fields.mp hn).2.2.1 arg (by simp [hargs])
    have hstatements : ∀ a ∈ (if arg.isBlock then arg.args else [arg]), a.Below p.limit := by
      split
      · exact (below_iff_fields.mp harg).2.2.1
      · exact forall_mem_singleton.mpr harg
    have hbranch := bounds_adopt h (below_unsafeBranch p.limit_pos hstatements)
    rw [← hadopt] at hbranch
    exact hbranch

/-- **The safety checks keep all labels within the bounds of the tables.** -/
theorem bounds_checkSafetyTo (depth : Nat) : ∀ {n : Node} {p r q}, p.Bounded → n.Below p.limit →
    (checkSafetyTo depth n).run p = .ok (r, q) → Bounds p r q := by
  induction depth with
  | zero =>
    intro n p r q h hn hrun
    cases pure_eq_ok.mp hrun
    exact ⟨h, Nat.le_refl _, rfl, hn⟩
  | succ depth ih =>
    intro n p r q h hn hrun
    rcases checkSafetyTo_cases hrun with ⟨loop, body, _, hloop⟩ |
      ⟨_, args, p₁, func, p₂, p₃, hargs, hfunc, rfl, hexpand⟩
    · rcases checkLoop_cases hloop with ⟨rfl, rfl⟩ | ⟨target, iterable, hhead, _, hwrap⟩
      · exact ⟨h, Nat.le_refl _, rfl, hn⟩
      · exact bounds_wrapIterable h hn hhead hwrap
    · obtain ⟨hid, hnfunc, hnargs, hntype⟩ := below_iff_fields.mp hn
      have hstep : ∀ ns : List Node, ∀ n ∈ ns, ∀ {p r q}, p.Bounded → n.Below p.limit →
          (checkSafetyTo depth n).run p = .ok (r, q) → Bounds p r q := fun _ _ _ {_ _ _} => ih
      obtain ⟨hbounded₁, hsize₁, hroot₁, hbelow₁⟩ := bounds_mapM (hstep _) h hnargs hargs
      have hn₁ := hn.mono (limit_mono hsize₁)
      have hupdate₁ := bounds_update (n := { p₁.current n with args := args.map p₁.current })
        hbounded₁ (by
          obtain ⟨hid, hfunc, _, htype⟩ := below_iff_fields.mp (hbounded₁.current hn₁)
          refine below_iff_fields.mpr ⟨hid, hfunc, ?_, htype⟩
          exact forall_mem_map.mpr fun a ha => hbounded₁.current (hbelow₁ a ha))
      have hn₂ := hn₁.mono (limit_mono hupdate₁.size)
      obtain ⟨hbounded₂, hsize₂, hroot₂, hbelow₂⟩ := bounds_mapM (hstep _) hupdate₁.bounded
        (fun f hf => (hnfunc f (Option.mem_toList.mp hf)).mono
          (Nat.le_trans (limit_mono hsize₁) (limit_mono hupdate₁.size))) hfunc
      have hn₃ := hn₂.mono (limit_mono hsize₂)
      have hupdate₂ := bounds_update (n := { p₂.current n with func := func.map p₂.current })
        hbounded₂ (by
          obtain ⟨hid, _, hargs, htype⟩ := below_iff_fields.mp (hbounded₂.current hn₃)
          refine below_iff_fields.mpr ⟨hid, ?_, hargs, htype⟩
          intro _ hmem
          obtain ⟨f, hf, rfl⟩ := Option.mem_map.mp hmem
          exact hbounded₂.current (hbelow₂ f (Option.mem_toList.mpr hf)))
      have hlast := bounds_expandUnsafe hupdate₂.bounded
        (hupdate₂.bounded.current (hn₃.mono (limit_mono hupdate₂.size))) hexpand
      exact ⟨hlast.bounded, by have := hupdate₁.size; have := hupdate₂.size; have := hlast.size; omega,
        by rw [hlast.root, hupdate₂.root, hroot₂, hupdate₁.root, hroot₁], hlast.below⟩

end Analysis

end Cppward
