import GraphInterval.Proofs.Tree.Spanning

/-!
# Paths in trees

A path lists the nodes on the way from one node to another one, none of them
twice.  Nodes that are joined have a path between them, and in a forest the path
is made of exactly the edges without which its ends would not be joined.
-/

namespace GraphInterval

/-- A path of edges from a node to another one, given by its nodes. -/
inductive IsPath (T : Finset (Sym2 ℕ)) : ℕ → List ℕ → ℕ → Prop where
  | single {a : ℕ} : IsPath T a [a] a
  | cons {a b c : ℕ} {nodes : List ℕ} :
      s(a, b) ∈ T → a ∉ nodes → IsPath T b nodes c → IsPath T a (a :: nodes) c

/-- The edges between consecutive nodes of a list. -/
def pathEdges (nodes : List ℕ) : List (Sym2 ℕ) :=
  List.zipWith (fun a b => s(a, b)) nodes nodes.tail

/-- The edge is on a path between two nodes. -/
def OnPath (T : Finset (Sym2 ℕ)) (f : Sym2 ℕ) (a b : ℕ) : Prop :=
  ∃ nodes, IsPath T a nodes b ∧ f ∈ pathEdges nodes

variable {T : Finset (Sym2 ℕ)} {V : Finset ℕ} {nodes : List ℕ} {f : Sym2 ℕ} {a b c x y : ℕ}

namespace IsPath

theorem exists_eq_cons (h : IsPath T a nodes b) : ∃ rest, nodes = a :: rest := by
  cases h with
  | single => exact ⟨[], rfl⟩
  | cons _ _ _ => exact ⟨_, rfl⟩

/-- The first edge of a longer path, and the others. -/
theorem pathEdges_cons (h : IsPath T b nodes c) (a : ℕ) :
    pathEdges (a :: nodes) = s(a, b) :: pathEdges nodes := by
  obtain ⟨rest, rfl⟩ := h.exists_eq_cons
  rfl

/-- A path leads on from all of its nodes. -/
theorem of_mem (h : IsPath T a nodes b) (hx : x ∈ nodes) : ∃ rest, IsPath T x rest b := by
  induction h with
  | single =>
      rw [List.mem_singleton.mp hx]
      exact ⟨_, single⟩
  | cons hedge hnot hpath ih =>
      obtain rfl | hx := List.mem_cons.mp hx
      · exact ⟨_, cons hedge hnot hpath⟩
      · exact ih hx

theorem mem_of_mem_pathEdges (h : IsPath T a nodes b) (hf : s(x, y) ∈ pathEdges nodes) :
    x ∈ nodes ∧ y ∈ nodes := by
  induction h with
  | single => exact absurd hf List.not_mem_nil
  | @cons a b c nodes _ _ hpath ih =>
      rw [hpath.pathEdges_cons] at hf
      obtain ⟨rest, rfl⟩ := hpath.exists_eq_cons
      obtain heq | hf := List.mem_cons.mp hf
      · obtain ⟨rfl, rfl⟩ | ⟨rfl, rfl⟩ := Sym2.eq_iff.mp heq <;> simp
      · obtain ⟨hx, hy⟩ := ih hf
        exact ⟨List.mem_cons_of_mem _ hx, List.mem_cons_of_mem _ hy⟩

/-- In a forest, a path has exactly the edges without which its ends are not joined. -/
theorem mem_pathEdges_iff (hT : IsForest T) (h : IsPath T a nodes b) :
    f ∈ pathEdges nodes ↔ f ∈ T ∧ ¬ Joined (T.erase f) a b := by
  induction h with
  | single =>
      exact iff_of_false List.not_mem_nil fun hf => hf.2 (Joined.refl _ _)
  | @cons a x b nodes hedge hnot hpath ih =>
      rw [hpath.pathEdges_cons, List.mem_cons, ih]
      by_cases hf : f = s(a, x)
      · subst hf
        -- the rest of the path does without the edge, since it does not return to its node
        have hrest : s(a, x) ∉ pathEdges nodes := fun hmem =>
          hnot (hpath.mem_of_mem_pathEdges hmem).1
        rw [ih, not_and, not_not] at hrest
        refine iff_of_true (.inl rfl) ⟨hedge, fun hjoined => ?_⟩
        exact hT a x hedge (hjoined.trans (hrest hedge).symm)
      · have hstep : Joined (T.erase f) a x :=
          Joined.edge (Finset.mem_erase.mpr ⟨Ne.symm hf, hedge⟩)
        have hiff : Joined (T.erase f) a b ↔ Joined (T.erase f) x b :=
          ⟨fun h => hstep.symm.trans h, fun h => hstep.trans h⟩
        rw [or_iff_right hf, hiff]

end IsPath

/-- Between joined nodes there is a path. -/
theorem Joined.exists_path (h : Joined T a b) : ∃ nodes, IsPath T a nodes b := by
  induction h using Relation.ReflTransGen.head_induction_on with
  | refl => exact ⟨_, .single⟩
  | @head x y hedge _ ih =>
      obtain ⟨nodes, hpath⟩ := ih
      by_cases hx : x ∈ nodes
      · exact hpath.of_mem hx
      · exact ⟨_, .cons hedge hx hpath⟩

/-- The edges on the path between two nodes of a tree. -/
theorem IsSpanningTree.onPath_iff (hT : IsSpanningTree V T) (ha : a ∈ V) (hb : b ∈ V) :
    OnPath T f a b ↔ f ∈ T ∧ ¬ Joined (T.erase f) a b := by
  constructor
  · rintro ⟨nodes, hpath, hf⟩
    exact (hpath.mem_pathEdges_iff hT.forest).mp hf
  · intro hf
    obtain ⟨nodes, hpath⟩ := (hT.joined a ha b hb).exists_path
    exact ⟨nodes, hpath, (hpath.mem_pathEdges_iff hT.forest).mpr hf⟩

end GraphInterval
