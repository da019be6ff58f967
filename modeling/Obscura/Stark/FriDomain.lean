import Obscura.Stark.Air

/-! # Where the low-degree test folds

`VerifyAIR` opens rows over the domain of the proof's degree, and the embedded FRI proof folds
over the domain of its own degree. The two are one domain exactly when the degrees agree, which
no check compares.
-/

namespace Obscura.Stark

open Wire

/-- The points FRI takes layer 0 to be evaluated over, in a test of degree `d`. -/
def foldDomain (d : Nat) : List (Option Felt) :=
  (List.range (friBlowup * d)).map (foldPoint airCoset d 0)

/-- The points the rows are opened over, in a proof of degree `d`. -/
def openDomain (d : Nat) : List (Option Felt) :=
  (List.range (friBlowup * d)).map (openPoint d)

theorem foldPoint_layer0 (d p : Nat) : foldPoint airCoset d 0 p = openPoint d p := rfl

section Verify

variable (sum256 : Bytes → Bytes)

/-- An opening is authenticated at position `p`, and at the point `x` of that position the DEEP
combination of its row is `g`. -/
structure Opened (c : Circuit) (pf : AIRProof) (view : View) (o : RowOpen) (p : Nat) (x : Felt)
    (g : Felt2) : Prop where
  point : openPoint pf.degree.toNat p = some x
  row : authRow sum256 c pf o p = some (o.cols, o.CP)
  deep : airDeep view.gc view.gcCP o.cols o.CP pf.Fz pf.Fgz pf.CPz x view.z view.gHz = g

/-- The layer-0 pair of query `q` is authenticated under the first root and folded with the first
challenge, at the point its rows are opened at. -/
def FoldedWhereOpened (c : Circuit) (pf : AIRProof) (view : View) (q pos : Nat) : Prop :=
  ∃ query lp root alpha oP oS x xS,
    pf.fri.queries[q]? = some query ∧ query.layers[0]? = some lp ∧
    pf.fri.roots[0]? = some root ∧
    (foldChallenges sum256 pf.fri.roots view.tr).1[0]? = some alpha ∧
    foldLayer sum256 airCoset pf.fri.degree.toNat pos 0 none root alpha lp =
      some (fold2 lp.X lp.XSym x alpha) ∧
    foldPoint airCoset pf.fri.degree.toNat 0 (pos % (friBlowup * pf.fri.degree.toNat / 2)) =
      some x ∧
    pf.openP[q]? = some oP ∧
    Opened sum256 c pf view oP (pos % (friBlowup * pf.degree.toNat / 2)) x lp.X ∧
    pf.openS[q]? = some oS ∧
    Opened sum256 c pf view oS (pos % (friBlowup * pf.degree.toNat / 2) +
      friBlowup * pf.degree.toNat / 2) xS lp.XSym

/-- The FRI proof was verified over the domain the rows were opened over. -/
structure BoundToDomain (netIDHex : Bytes) (tries : Nat) (c : Circuit) (pf : AIRProof)
    (nQueries : Nat) : Prop where
  domain : foldDomain pf.fri.degree.toNat = openDomain pf.degree.toNat
  pairs : ∀ view positions, airView sum256 netIDHex tries c pf = some view →
    friVerifyShared2 sum256 pf.fri nQueries view.tr airCoset = some positions →
    ∀ q pos, positions[q]? = some pos → FoldedWhereOpened sum256 c pf view q pos

variable {sum256}

theorem foldLayers_first {coset : Felt} {d pos : Nat} {root : Bytes} {alpha : Felt2}
    {lp : FriLayerProof2} {rest : List (Bytes × Felt2 × FriLayerProof2)} {value : Felt2}
    (folds : foldLayers sum256 coset d pos 0 none ((root, alpha, lp) :: rest) = some value) :
    ∃ x, foldPoint coset d 0 (pos % (friBlowup * d / 2)) = some x ∧
      foldLayer sum256 coset d pos 0 none root alpha lp =
        some (fold2 lp.X lp.XSym x alpha) := by
  rw [foldLayers, Option.bind_eq_some_iff] at folds
  obtain ⟨next, first, -⟩ := folds
  have spelled := first
  dsimp only [foldLayer] at spelled
  split_ifs at spelled with unauthenticated mismatch
  obtain ⟨x, point, folded⟩ := Option.map_eq_some_iff.mp spelled
  rw [pow_zero, Nat.div_one] at point
  exact ⟨x, point, by rw [first, folded]⟩

theorem length_foldChallenges (roots : List Bytes) (tr : Transcript) :
    (foldChallenges sum256 roots tr).1.length = roots.length := by
  induction roots generalizing tr with
  | nil => rfl
  | cons root roots ih =>
    rw [foldChallenges, List.length_cons, List.length_cons, ih]

/-- Each accepted query has folded its layer-0 pair at the point of its position. -/
theorem checkQueries_folds {coset : Felt} {d : Nat} {pf : FriProof2} {alphas : List Felt2}
    (some_root : pf.roots ≠ []) (layered : pf.roots.length = log2 d)
    (challenged : alphas.length = pf.roots.length) {queries : List FriQuery2} {tr : Transcript}
    {positions : List Nat}
    (checks : checkQueries sum256 coset d pf alphas queries tr = some positions) {q pos : Nat}
    (drawn : positions[q]? = some pos) :
    ∃ query lp root alpha x, queries[q]? = some query ∧ query.layers[0]? = some lp ∧
      pf.roots[0]? = some root ∧ alphas[0]? = some alpha ∧
      foldPoint coset d 0 (pos % (friBlowup * d / 2)) = some x ∧
      foldLayer sum256 coset d pos 0 none root alpha lp =
        some (fold2 lp.X lp.XSym x alpha) := by
  induction queries generalizing tr positions q with
  | nil =>
    rw [checkQueries, Option.some_inj] at checks
    simp [← checks] at drawn
  | cons query queries ih =>
    dsimp only [checkQueries] at checks
    split_ifs at checks with misplaced folds
    obtain ⟨later, checked, rfl⟩ := Option.map_eq_some_iff.mp checks
    cases q with
    | succ q => exact ih checked drawn
    | zero =>
      rw [List.getElem?_cons_zero, Option.some_inj] at drawn
      rw [drawn] at folds misplaced
      have layers : query.layers.length = pf.roots.length := by
        rw [layered]
        exact not_not.mp fun wrong => misplaced (Or.inr wrong)
      rcases roots : pf.roots with _ | ⟨root, roots'⟩
      · exact absurd roots some_root
      rw [roots, List.length_cons] at layers challenged
      obtain ⟨alpha, alphas', rfl⟩ := List.exists_cons_of_length_eq_add_one challenged
      obtain ⟨lp, layers', opened⟩ := List.exists_cons_of_length_eq_add_one layers
      rw [roots, opened, List.zip_cons_cons, List.zip_cons_cons] at folds
      obtain ⟨x, point, folded⟩ := foldLayers_first folds
      exact ⟨query, lp, root, alpha, x, rfl, by rw [opened]; rfl, rfl, rfl, point,
        folded⟩

/-- What the check of a folding proof says of each query. -/
theorem friVerifyShared2_folds {pf : FriProof2} {nQueries : Nat} {tr : Transcript}
    {coset : Felt} {positions : List Nat}
    (verified : friVerifyShared2 sum256 pf nQueries tr coset = some positions) {q pos : Nat}
    (drawn : positions[q]? = some pos) :
    ∃ query lp root alpha x, pf.queries[q]? = some query ∧ query.layers[0]? = some lp ∧
      pf.roots[0]? = some root ∧ (foldChallenges sum256 pf.roots tr).1[0]? = some alpha ∧
      foldPoint coset pf.degree.toNat 0 (pos % (friBlowup * pf.degree.toNat / 2)) = some x ∧
      foldLayer sum256 coset pf.degree.toNat pos 0 none root alpha lp =
        some (fold2 lp.X lp.XSym x alpha) := by
  dsimp only [friVerifyShared2] at verified
  split_ifs at verified with badDegree badRoots miscounted
  case pos =>
    obtain ⟨ground, -, refused⟩ := Option.bind_eq_some_iff.mp verified
    exact absurd refused (Option.some_ne_none positions).symm
  case neg =>
    rw [not_or, not_not] at badRoots
    obtain ⟨ground, -, checks⟩ := Option.bind_eq_some_iff.mp verified
    exact checkQueries_folds badRoots.2 badRoots.1 (length_foldChallenges _ _) checks drawn

theorem authRow_eq {c : Circuit} {pf : AIRProof} {o : RowOpen} {p : Nat} {f : List Felt}
    {cp : Felt} (authenticated : authRow sum256 c pf o p = some (f, cp)) :
    f = o.cols ∧ cp = o.CP := by
  dsimp only [authRow] at authenticated
  split_ifs at authenticated
  rw [Option.some_inj, Prod.mk.injEq] at authenticated
  exact ⟨authenticated.1.symm, authenticated.2.symm⟩

theorem deepAgrees_opened {c : Circuit} {pf : AIRProof} {view : View} {o : RowOpen} {p : Nat}
    {g : Felt2} (agrees : deepAgrees sum256 c pf view o p g = true) :
    ∃ x, Opened sum256 c pf view o p x g := by
  unfold deepAgrees at agrees
  split at agrees
  case h_1 f cp x authenticated point =>
    obtain ⟨rfl, rfl⟩ := authRow_eq authenticated
    exact ⟨x, point, authenticated, beq_iff_eq.mp agrees⟩
  case h_2 => exact absurd agrees Bool.false_ne_true

/-- The check of a query opens both positions. -/
theorem queryAgrees_opened {c : Circuit} {pf : AIRProof} {view : View} {q pos : Nat}
    (agrees : queryAgrees sum256 c pf view q pos = true) :
    ∃ oP oS gP gS x xS, pf.openP[q]? = some oP ∧ pf.openS[q]? = some oS ∧
      pf.fri.layer0 q = some (gP, gS) ∧
      Opened sum256 c pf view oP (pos % (friBlowup * pf.degree.toNat / 2)) x gP ∧
      Opened sum256 c pf view oS (pos % (friBlowup * pf.degree.toNat / 2) +
        friBlowup * pf.degree.toNat / 2) xS gS := by
  dsimp only [queryAgrees] at agrees
  split at agrees
  case h_1 oP oS gP gS openP openS layer =>
    rw [Bool.and_eq_true] at agrees
    obtain ⟨x, left⟩ := deepAgrees_opened agrees.1
    obtain ⟨xS, right⟩ := deepAgrees_opened agrees.2
    exact ⟨oP, oS, gP, gS, x, xS, openP, openS, layer, left, right⟩
  case h_2 => exact absurd agrees Bool.false_ne_true

/-- What an accepted proof has passed. -/
theorem verifyAIR_accepted {netIDHex : Bytes} {tries : Nat} {c : Circuit} {pf : AIRProof}
    {nQueries : Nat} (accepted : verifyAIR sum256 netIDHex tries c pf nQueries = true) :
    ∃ view positions, airView sum256 netIDHex tries c pf = some view ∧
      friVerifyShared2 sum256 pf.fri nQueries view.tr airCoset = some positions ∧
      ∀ q pos, positions[q]? = some pos → queryAgrees sum256 c pf view q pos = true := by
  unfold verifyAIR at accepted
  split at accepted
  case h_1 => exact absurd accepted Bool.false_ne_true
  case h_2 view viewed =>
    split at accepted
    case h_1 => exact absurd accepted Bool.false_ne_true
    case h_2 positions verified =>
      split_ifs at accepted with miscounted
      refine ⟨view, positions, viewed, verified, ?_⟩
      intro q pos drawn
      exact List.all_eq_true.mp accepted (pos, q) (List.mk_mem_zipIdx_iff_getElem?.mpr drawn)

theorem airView_degree {netIDHex : Bytes} {tries : Nat} {c : Circuit} {pf : AIRProof}
    {view : View} (viewed : airView sum256 netIDHex tries c pf = some view) : 2 ≤ pf.degree := by
  simp only [airView, Option.bind_eq_bind, Option.bind_eq_some_iff, Option.guard_eq_some'] at viewed
  obtain ⟨-, shaped, -, bounded, -⟩ := viewed
  rw [not_or] at shaped bounded
  omega

/-- An accepted proof was tested for low degree over the domain its rows were opened over
exactly when the FRI proof carries the proof's own degree. -/
theorem boundToDomain_iff {netIDHex : Bytes} {tries : Nat} {c : Circuit} {pf : AIRProof}
    {nQueries : Nat} (accepted : verifyAIR sum256 netIDHex tries c pf nQueries = true) :
    BoundToDomain sum256 netIDHex tries c pf nQueries ↔ pf.fri.degree = pf.degree := by
  obtain ⟨view, positions, viewed, verified, agree⟩ := verifyAIR_accepted accepted
  have big := airView_degree viewed
  constructor
  case mp =>
    intro bound
    have sizes := congrArg List.length bound.domain
    simp only [foldDomain, openDomain, List.length_map, List.length_range, friBlowup] at sizes
    omega
  case mpr =>
    intro same
    refine ⟨by rw [same]; rfl, ?_⟩
    intro view' positions' viewed' verified' q pos drawn
    obtain rfl : view = view' := Option.some_inj.mp (viewed.symm.trans viewed')
    obtain rfl : positions = positions' := Option.some_inj.mp (verified.symm.trans verified')
    obtain ⟨query, lp, root, alpha, x, asked, layer, first, drew, point, folded⟩ :=
      friVerifyShared2_folds verified drawn
    obtain ⟨oP, oS, gP, gS, x', xS, openP, openS, layer0, left, right⟩ :=
      queryAgrees_opened (agree q pos drawn)
    have pair : pf.fri.layer0 q = some (lp.X, lp.XSym) := by
      rw [FriProof2.layer0, asked, Option.bind_some, layer, Option.map_some]
    obtain ⟨rfl, rfl⟩ := Prod.mk.inj (Option.some_inj.mp (layer0.symm.trans pair))
    have one_point : x' = x := by
      have opened := left.point
      rw [← foldPoint_layer0, ← same, point, Option.some_inj] at opened
      exact opened.symm
    subst one_point
    exact ⟨query, lp, root, alpha, oP, oS, x', xS, asked, layer, first, drew, folded, point, openP,
      left, openS, right⟩

end Verify

/-! ## A constant oracle -/

/-- A hash whose challenges are `1 + u` and whose leading bits are zero. -/
def toyHash : Bytes :=
  List.replicate 7 0 ++ [1] ++ List.replicate 15 0 ++ [1] ++ List.replicate 8 0

/-- A hash whose digest is the same on every string. -/
def toyOracle (_ : Bytes) : Bytes := toyHash

/-- One column that keeps its value. -/
def toyCircuit : Circuit where
  name := ascii "toy"
  cols := 1
  periodic := 0
  traceLen := 2
  periodicCol _ := []
  boundaries := []
  constraintsFelt cur next _ := List.zipWith Felt.sub next cur
  constraintsExt cur next _ := List.zipWith Felt2.sub next cur

/-- A queried layer of `2 ^ depth` pairs, all zero. -/
def toyLayer (depth : Nat) : FriLayerProof2 := ⟨.zero, .zero, List.replicate depth toyHash⟩

/-- The proof of degree 4 that the zero trace satisfies the circuit, around an FRI proof. -/
def toyProof (fri : FriProof2) : AIRProof :=
  let row : RowOpen := ⟨[.zero], List.replicate 4 toyHash, .zero, List.replicate 4 toyHash⟩
  ⟨4, toyHash, toyHash, [.zero], [.zero], .zero, fri, [row], [row]⟩

/-- An FRI proof of degree 4. -/
def toyFri : FriProof2 :=
  ⟨4, [toyHash, toyHash], .zero, 0, [⟨1, [toyLayer 3, toyLayer 2]⟩]⟩

/-- An FRI proof of degree 2. -/
def halvedFri : FriProof2 := ⟨2, [toyHash], .zero, 0, [⟨1, [toyLayer 2]⟩]⟩

theorem toyProof_bound :
    BoundToDomain toyOracle [] 1 toyCircuit (toyProof toyFri) 1 ↔
      (toyProof toyFri).fri.degree = (toyProof toyFri).degree :=
  boundToDomain_iff (by decide +kernel)

/-- An accepted proof of degree 4 whose FRI proof has degree 2: its one query opens rows at
position 1 of 16 points and folds at position 1 of 8. -/
theorem halvedProof_accepted :
    verifyAIR toyOracle [] 1 toyCircuit (toyProof halvedFri) 1 = true ∧
      (toyProof halvedFri).fri.degree ≠ (toyProof halvedFri).degree ∧
      ((airView toyOracle [] 1 toyCircuit (toyProof halvedFri)).bind fun view =>
        friVerifyShared2 toyOracle halvedFri 1 view.tr airCoset) = some [1] ∧
      foldPoint airCoset 2 0 (1 % (friBlowup * 2 / 2)) ≠ openPoint 4 (1 % (friBlowup * 4 / 2)) ∧
      ¬ BoundToDomain toyOracle [] 1 toyCircuit (toyProof halvedFri) 1 := by
  refine ⟨by decide +kernel, by decide, by decide +kernel, by decide +kernel, ?_⟩
  intro bound
  exact absurd bound.domain (by decide +kernel)

end Obscura.Stark
