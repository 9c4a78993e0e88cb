import NerdRtos.Analysis.RbEraseColor

/-!
# Taking a node out

`rb_erase`. A node with one child at most is replaced by it. Of a node with two children the next
node, which has no child on the left, is taken out in its stead and then put in its place.
-/

set_option autoImplicit false

namespace NerdRtos

open RedBlack
open RedBlack.ColorTree (fork)

namespace RbTree

variable {N : Type} [DecidableEq N] {t : RbTree N} {q : Option N} {s : Side} {c d : Color}
  {a b l r u : ColorTree N} {x y : N} {p path : List (Frame N)} {L : List N} {n : ℕ}

/-- Taking out the node between two others. -/
theorem erase_middle {l₁ l₂ : List N} (h : (l₁ ++ x :: l₂).Nodup) :
    (l₁ ++ x :: l₂).erase x = l₁ ++ l₂ := by
  have hx : x ∉ l₁ := fun hm => (List.nodup_append.mp h).2.2 x hm x (by simp) rfl
  rw [List.erase_append_right _ hx, List.erase_cons_head]

/-! ## A node with one child at most -/

/-- A node without a child on side `s` gives its place to its other child. -/
theorem At.splice (h : At t path (fork s c .nil x b) L) (s' : Side) :
    At ((t.setParentOf b.root (above path)).changeChild s' x b.root (above path)) path b
      (L.erase x) ∧
    Same L t ((t.setParentOf b.root (above path)).changeChild s' x b.root (above path)) := by
  obtain ⟨-, -, hb⟩ := layout_fork.mp h.here
  obtain ⟨hnd, hndoff, hoff⟩ := h.apart
  simp only [ColorTree.nodup_fork, ColorTree.mem_fork] at hnd hoff
  have hxoff : x ∉ offPath path := hoff x (by simp)
  have hboff : ∀ z ∈ b.inorder, z ∉ offPath path := fun z hz => hoff z (by simp [hz])
  have hway : PathLayout (t.setParentOf b.root (above path)) path (some x) := by
    have hway := h.way
    rw [ColorTree.root_fork] at hway
    exact hway.congr (setParentOf_rbNode ..) fun z hz =>
      setParentOf_node_of_notMem fun hzb => hboff z hzb hz
  obtain ⟨hway', hsame⟩ := hway.changeChild (p := b.root) hndoff hxoff s'
  have hseq : ∃ l₁ l₂, (plug path (fork s c .nil x b)).inorder = l₁ ++ x :: l₂ ∧
      (plug path b).inorder = l₁ ++ l₂ := by
    simp only [inorder_plug]
    cases s with
    | left =>
      exact ⟨before path, b.inorder ++ after path, by simp [fork, ColorTree.inorder], by simp⟩
    | right =>
      exact ⟨before path ++ b.inorder, after path, by simp [fork, ColorTree.inorder], by simp⟩
  obtain ⟨l₁, l₂, hold, hnew⟩ := hseq
  refine ⟨⟨(layout_setParentOf hb hnd.2.2.2.1).congr fun z hz => hsame z (hboff z hz), hway', ?_,
    h.nodup.erase x⟩, ?_⟩
  · have hndL := h.nodup
    rw [← h.order, hold] at hndL ⊢
    rw [hnew, erase_middle hndL]
  · intro z hz
    rw [h.mem_iff, not_or, ColorTree.mem_fork] at hz
    simp only [not_or] at hz
    rw [hsame z hz.2]
    exact setParentOf_node_of_notMem hz.1.2.2

/-- A tree that stands where a node of colour `c` was taken out becomes balanced. -/
theorem eraseFinish_spec {turns : ℕ} (h : At t path u L) (hu : Balanced u d n)
    (hfits : Fits path c (n + c.weight)) (hred : c = .red → d = .black)
    (hturns : path.length < turns) :
    ∃ t' w, rbEraseFinish turns c u.root (above path) t = some t' ∧ At t' [] w L ∧ IsRedBlack w ∧
      Same L t t' := by
  cases c with
  | red =>
    obtain rfl := hred rfl
    exact ⟨t, _, rfl, h.toRoot, hfits.of_red.plug hu, Same.refl L t⟩
  | black => exact eraseColor_spec h hu.short hfits hturns

/-- `rb_erase` of a node with one child at most. -/
theorem eraseOne_spec {turns : ℕ} (h : At t path (fork s c .nil x b) L)
    (hrb : IsRedBlack (plug path (fork s c .nil x b))) (hturns : path.length < turns) :
    ∃ t' w, rbEraseOne turns x b.root t = some t' ∧ At t' [] w (L.erase x) ∧ IsRedBlack w ∧
      Same L t t' := by
  obtain ⟨hat, hsame⟩ := h.splice .left
  obtain ⟨e, k, hfits, hbal⟩ := hrb.focus
  have hgoal : ∃ d n, Balanced b d n ∧ Fits path c (n + c.weight) ∧ (c = .red → d = .black) := by
    cases c with
    | red =>
      obtain ⟨rfl, -, hb⟩ := balanced_fork_red.mp hbal
      exact ⟨_, _, hb, hfits, fun _ => rfl⟩
    | black =>
      obtain ⟨m, rfl, rfl, -, d, hb⟩ := balanced_fork_black.mp hbal
      exact ⟨d, m, hb, hfits, fun he => nomatch he⟩
  obtain ⟨d, n, hb, hfits', hred⟩ := hgoal
  obtain ⟨t', w, hrun, hat', hrb', hsame'⟩ := eraseFinish_spec hat hb hfits' hred hturns
  refine ⟨t', w, ?_, hat', hrb', hsame.trans fun z hz => hsame' z fun hm => hz ?_⟩
  · rw [rbEraseOne, h.rbParent_eq, h.rbColor_eq]
    exact hrun
  · exact List.mem_of_mem_erase hm

/-! ## A node with two children -/

/-- The next node `y` is taken out of the right subtree of `x`, which becomes its own. -/
theorem takeOut_spec {l' r' : Option N} (hx : t.node x = RbNode.fork .left q c l' r')
    (hr' : r' = (plug p (fork .left d .nil y b)).root)
    (hr : Layout t.node (some x) (plug p (fork .left d .nil y b)))
    (hside : ∀ f ∈ p, f.side = .left) (hnd : (plug p (fork .left d .nil y b)).inorder.Nodup)
    (hxr : x ∉ (plug p (fork .left d .nil y b)).inorder) :
    ∃ t', rbTakeOut x y t = some ((above p).or (some y), t') ∧
      t'.child y .right = (plug p b).root ∧ Layout t'.node (some y) (plug p b) ∧
      (∀ z ∉ (plug p (fork .left d .nil y b)).inorder, t'.node z = t.node z) ∧
      t'.rbNode = t.rbNode := by
  obtain ⟨hy, -, hb⟩ := layout_fork.mp hr.at_place
  have hchild : t.child y .right = b.root := by
    rw [RbTree.child, hy]
    rfl
  have hparent : t.rbParent y = (above p).or (some x) := by rw [rbParent, hy, RbNode.rbParent_fork]
  cases p with
  | nil =>
    refine ⟨t, ?_, hchild, hb, fun _ _ => rfl, rfl⟩
    simp only [rbTakeOut, hparent, above, Option.none_or, if_pos, Option.pure_def]
  | cons f p =>
    obtain ⟨hndy, hndp, hoff⟩ := nodup_plug.mp hnd
    obtain ⟨-, hyb, -, hndb, -⟩ := ColorTree.nodup_fork.mp hndy
    have hyoff : y ∉ offPath (f :: p) := hoff y (ColorTree.mem_fork.mpr (.inl rfl))
    have hboff : ∀ z ∈ b.inorder, z ∉ offPath (f :: p) :=
      fun z hz => hoff z (ColorTree.mem_fork.mpr (.inr (.inr hz)))
    have hyR : y ∉ (plug (f :: p) b).inorder := by
      rw [mem_plug]
      exact fun hm => hm.elim hyb hyoff
    have hndR : (plug (f :: p) b).inorder.Nodup := nodup_plug.mpr ⟨hndb, hndp, hboff⟩
    simp only [mem_plug, not_or, ColorTree.mem_fork, offPath_cons, List.cons_append, List.mem_cons,
      List.mem_append, List.nodup_cons] at hxr hndp hyoff hboff ⊢
    obtain ⟨hfoff, -⟩ := hndp
    have hyf : y ≠ f.node := hyoff.1
    have hxf : x ≠ f.node := hxr.2.1
    -- the child of `y` goes to the parent of `y`
    let t₁ := (t.setParentOf b.root (some f.node)).setChild .left f.node b.root
    have hsame₁ : ∀ z, z ≠ f.node → z ∉ b.inorder → t₁.node z = t.node z := by
      intro z hzf hzb
      exact (setChild_node_of_ne _ _ _ _ hzf).trans (setParentOf_node_of_notMem hzb)
    have hput : Layout t.node (some x) (plug p (f.put (fork .left d .nil y b))) := hr
    obtain ⟨hf, -, hsib⟩ := layout_fork.mp hput.at_place
    rw [hside f (by simp), ColorTree.root_fork] at hf
    have hplug₁ : Layout t₁.node (some x) (plug (f :: p) b) := by
      refine hput.plug_congr (w := f.put b) ?_ ?_ ?_
      · intro z hz
        exact hsame₁ z (fun he => hfoff.2 (he ▸ hz)) fun hzb => (hboff z hzb).2.2 hz
      · exact (ColorTree.root_fork ..).trans (ColorTree.root_fork ..).symm
      · refine layout_fork.mpr ⟨?_, ?_, ?_⟩
        · rw [hside f (by simp)]
          refine setChild_node_near _ _ _ _ _ ((setParentOf_node_of_notMem ?_).trans hf)
          exact fun hm => (hboff _ hm).1 rfl
        · refine (layout_setParentOf hb hndb).congr fun z hz => ?_
          exact setChild_node_of_ne _ _ _ _ (hboff z hz).1
        · refine hsib.congr fun z hz => hsame₁ z ?_ fun hzb => (hboff z hzb).2.1 hz
          exact fun he => hfoff.1 (he ▸ hz)
    -- the subtree goes to `y`
    obtain ⟨r₀, hmem, hroot⟩ := exists_root_plug f p
    let t₂ := t₁.setChild .right y (some r₀)
    let t₃ := t₂.rbSetParent r₀ (some y)
    have hr₀ : r₀ ∈ (plug (f :: p) b).inorder := mem_plug.mpr (.inr hmem)
    have hyr : y ≠ r₀ := ne_of_mem_of_not_mem hr₀ hyR |>.symm
    have hy₂ : (t₂.node y).child .right = some r₀ := by
      simp [t₂, setChild, upd, RbNode.child]
    have hx₁ : t₁.child x .right = some r₀ := by
      rw [RbTree.child, hsame₁ x hxf hxr.1.2.2, hx, hr', hroot]
      rfl
    have hx₂ : t₂.child x .right = some r₀ := by
      rw [RbTree.child, setChild_node_of_ne _ _ _ _ hxr.1.1]
      exact hx₁
    have hplug₂ : Layout t₂.node (some x) (plug (f :: p) b) := by
      exact hplug₁.congr fun z hz => setChild_node_of_ne _ _ _ _ (ne_of_mem_of_not_mem hz hyR)
    refine ⟨t₃, ?_, ?_, ?_, ?_, ?_⟩
    · have hne : ¬(above (f :: p)).or (some x) = some x := by
        simpa [above] using Ne.symm hxf
      simp only [rbTakeOut, hparent, hchild, if_neg hne]
      simp only [above, Option.some_or, Option.bind_eq_bind, Option.bind_some, Option.pure_def]
      rw [show ((t.setParentOf b.root (some f.node)).setChild .left f.node b.root).child x .right =
        some r₀ from hx₁, show (t₁.setChild .right y (some r₀)).child x .right = some r₀ from hx₂]
      rfl
    · rw [RbTree.child, rbSetParent_node_of_ne _ _ _ hyr, hy₂, hroot]
    · have hlayout := layout_setParentOf (p := some y) hplug₂ hndR
      rw [hroot] at hlayout
      exact hlayout
    · intro z hz
      have hzr : z ≠ r₀ := by
        rintro rfl
        rw [offPath_cons, List.cons_append, List.mem_cons, List.mem_append] at hmem
        tauto
      calc t₃.node z = t₂.node z := rbSetParent_node_of_ne _ _ _ hzr
        _ = t₁.node z := setChild_node_of_ne _ _ _ _ hz.1.1
        _ = t.node z := hsame₁ z hz.2.1 hz.1.2.2
    · exact setParentOf_rbNode ..

/-- `y`, which was taken out of the right subtree of `x`, takes the place of `x`. -/
theorem At.takePlace {x₀ : N} {t₁ t₂ : RbTree N}
    (h : At t path (fork .left c l x (plug p (fork .left d .nil y b))) L)
    (hside : ∀ f ∈ p, f.side = .left) (hl : l.root = some x₀)
    (hway : PathLayout t₁ path (some y)) (hsame₁ : ∀ z ∉ offPath path, t₁.node z = t.node z)
    (hright : t₂.child y .right = (plug p b).root) (hR : Layout t₂.node (some y) (plug p b))
    (hsame₂ : ∀ z ∉ (plug p (fork .left d .nil y b)).inorder, t₂.node z = t₁.node z)
    (hroot : t₂.rbNode = t₁.rbNode) :
    At ((((t₂.rbSetParent y (above path)).rbSetColor y c).setChild .left y (some x₀)).rbSetParent x₀
      (some y)) path (fork .left c l y (plug p b)) (L.erase x) ∧
    Same L t ((((t₂.rbSetParent y (above path)).rbSetColor y c).setChild .left y
      (some x₀)).rbSetParent x₀ (some y)) := by
  obtain ⟨-, hlay, -⟩ := layout_fork.mp h.here
  obtain ⟨hnd, -, hoff⟩ := h.apart
  obtain ⟨-, -, hndl, hndR, hdisj⟩ := ColorTree.nodup_fork.mp hnd
  have hyR : y ∈ (plug p (fork .left d .nil y b)).inorder :=
    mem_plug.mpr (.inl (ColorTree.mem_fork.mpr (.inl rfl)))
  have hx₀ : x₀ ∈ l.inorder := ColorTree.mem_root hl
  have hyx₀ : y ≠ x₀ := by
    rintro rfl
    exact hdisj y hx₀ hyR
  have hbelow : ∀ z ∈ (plug p b).inorder, z ≠ y ∧ z ≠ x₀ := by
    intro z hz
    have hsplit := inorder_plug_left hside d y b
    have hzR : z ∈ (plug p (fork .left d .nil y b)).inorder := by
      rw [hsplit]
      exact List.mem_cons_of_mem _ hz
    rw [hsplit] at hndR
    refine ⟨ne_of_mem_of_not_mem hz (List.nodup_cons.mp hndR).1, ?_⟩
    rintro rfl
    exact hdisj z hx₀ hzR
  let t₃ := ((t₂.rbSetParent y (above path)).rbSetColor y c).setChild .left y (some x₀)
  let t₄ := t₃.rbSetParent x₀ (some y)
  have hsame₃ : ∀ z, z ≠ y → t₃.node z = t₂.node z := by
    intro z hz
    calc t₃.node z = ((t₂.rbSetParent y (above path)).rbSetColor y c).node z :=
          setChild_node_of_ne _ _ _ _ hz
      _ = (t₂.rbSetParent y (above path)).node z := rbSetColor_node_of_ne _ _ _ hz
      _ = t₂.node z := rbSetParent_node_of_ne _ _ _ hz
  have hsame₄ : ∀ z, z ≠ y → z ≠ x₀ → t₄.node z = t₂.node z :=
    fun z hzy hzx => (rbSetParent_node_of_ne _ _ _ hzx).trans (hsame₃ z hzy)
  have haway : ∀ z ∉ (fork .left c l x (plug p (fork .left d .nil y b))).inorder,
      t₄.node z = t₁.node z := by
    intro z hz
    rw [ColorTree.mem_fork, not_or, not_or] at hz
    have hzy : z ≠ y := fun he => hz.2.2 (he ▸ hyR)
    have hzx : z ≠ x₀ := fun he => hz.2.1 (he ▸ hx₀)
    exact (hsame₄ z hzy hzx).trans (hsame₂ z hz.2.2)
  refine ⟨⟨layout_fork.mpr ⟨?_, ?_, ?_⟩, ?_, ?_, h.nodup.erase x⟩, ?_⟩
  · have hself : t₃.node y = RbNode.fork .left (above path) c (some x₀) (plug p b).root := by
      have hfield : (t₂.node y).rbRight = (plug p b).root := hright
      simp [t₃, setChild, upd, RbNode.fork, hfield]
    rw [hl]
    exact (rbSetParent_node_of_ne _ _ _ hyx₀).trans hself
  · have hl₃ : Layout t₃.node (some x) l := by
      refine hlay.congr fun z hz => ?_
      have hzy : z ≠ y := fun he => hdisj z hz (he ▸ hyR)
      calc t₃.node z = t₂.node z := hsame₃ z hzy
        _ = t₁.node z := hsame₂ z (hdisj z hz)
        _ = t.node z := hsame₁ z (hoff z (ColorTree.mem_fork.mpr (.inr (.inl hz))))
    have hl₄ := layout_setParentOf (p := some y) hl₃ hndl
    rw [hl] at hl₄
    exact hl₄
  · exact hR.congr fun z hz => hsame₄ z (hbelow z hz).1 (hbelow z hz).2
  · rw [ColorTree.root_fork]
    exact hway.congr hroot fun z hz => haway z fun hm => hoff z hm hz
  · have hold : L =
        (before path ++ l.inorder) ++ x :: (y :: (plug p b).inorder ++ after path) := by
      rw [← h.order, inorder_plug]
      show before path ++ (l.inorder ++ x :: (plug p (fork .left d .nil y b)).inorder) ++ _ = _
      rw [inorder_plug_left hside]
      simp
    have hnew : (plug path (fork .left c l y (plug p b))).inorder =
        (before path ++ l.inorder) ++ (y :: (plug p b).inorder ++ after path) := by
      rw [inorder_plug]
      show before path ++ (l.inorder ++ y :: (plug p b).inorder) ++ _ = _
      simp
    rw [hnew, hold, erase_middle (hold ▸ h.nodup)]
  · intro z hz
    rw [h.mem_iff, not_or] at hz
    exact (haway z hz.1).trans (hsame₁ z hz.2)

/-- `rb_erase` of a node with two children: its successor takes its place. -/
theorem eraseTwo_spec {turns : ℕ} {x₀ r₀ : N} (h : At t path (fork .left c l x r) L)
    (hl : l.root = some x₀) (hr : r.root = some r₀)
    (hrb : IsRedBlack (plug path (fork .left c l x r)))
    (hturns : 2 * (L.length + 1).log2 < turns) :
    ∃ t' w, rbEraseTwo turns x r₀ t = some t' ∧ At t' [] w (L.erase x) ∧ IsRedBlack w ∧
      Same L t t' := by
  obtain ⟨hx, -, hright⟩ := layout_fork.mp h.here
  obtain ⟨hnd, hndoff, hoff⟩ := h.apart
  have hheight : path.length + (max l.height r.height + 1) < turns := by
    have hdepth := length_add_height_le path (fork .left c l x r)
    have hlog := hrb.height_le
    rw [h.order] at hlog
    rw [ColorTree.height_fork] at hdepth
    omega
  have hbelow : r.height ≤ turns := by omega
  obtain ⟨p, y, d, b, rfl, hside, hdown⟩ := down_spec (s := .left) hright hr hbelow
  obtain ⟨-, hxR, -, hndR, -⟩ := ColorTree.nodup_fork.mp hnd
  have hin : ∀ z ∈ (fork .left c l x (plug p (fork .left d .nil y b))).inorder,
      z ∉ offPath path := hoff
  -- the pointer to the place goes to `y`
  let t₁ := t.changeChild .left x (some y) (above path)
  have hway := h.way
  rw [ColorTree.root_fork] at hway
  obtain ⟨hway₁, hsame₁⟩ := hway.changeChild (p := some y) hndoff
    (hin x (ColorTree.mem_fork.mpr (.inl rfl))) .left
  have hx₁ : t₁.node x = RbNode.fork .left (above path) c l.root
      (plug p (fork .left d .nil y b)).root :=
    (hsame₁ x (hin x (ColorTree.mem_fork.mpr (.inl rfl)))).trans hx
  have hright₁ : Layout t₁.node (some x) (plug p (fork .left d .nil y b)) :=
    hright.congr fun z hz => hsame₁ z (hin z (ColorTree.mem_fork.mpr (.inr (.inr hz))))
  obtain ⟨hy₁, -⟩ := layout_fork.mp hright₁.at_place
  -- `y` comes out of the right subtree
  obtain ⟨t₂, hrun₂, hchild₂, hR₂, hsame₂, hroot₂⟩ :=
    takeOut_spec hx₁ rfl hright₁ hside hndR hxR
  have hx₂ : t₂.node x = RbNode.fork .left (above path) c (some x₀) (some r₀) := by
    rw [hsame₂ x hxR, hx₁, hl, hr]
  have hxy : x ≠ y := by
    rintro rfl
    exact hxR (mem_plug.mpr (.inl (ColorTree.mem_fork.mpr (.inl rfl))))
  obtain ⟨hat, hsame⟩ := h.takePlace hside hl hway₁ hsame₁ hchild₂ hR₂ hsame₂ hroot₂
  have hat' : At _ (p ++ ⟨.right, c, y, l⟩ :: path) b _ := at_append.mpr (at_fork.mp hat.flip)
  have hbalanced : ∃ e n, Balanced b e n ∧ Fits (p ++ ⟨.right, c, y, l⟩ :: path) d (n + d.weight) ∧
      (d = .red → e = .black) := by
    have hplace : plug path (fork .left c l x (plug p (fork .left d .nil y b))) =
        plug (p ++ ⟨.right, c, x, l⟩ :: path) (fork .left d .nil y b) := by
      rw [plug_append]
      rfl
    rw [hplace] at hrb
    obtain ⟨e, k, hfits, hbal⟩ := hrb.focus
    have hfits' := hfits.rename y
    cases d with
    | red =>
      obtain ⟨rfl, -, hb⟩ := balanced_fork_red.mp hbal
      exact ⟨_, _, hb, hfits', fun _ => rfl⟩
    | black =>
      obtain ⟨m, rfl, rfl, -, d, hb⟩ := balanced_fork_black.mp hbal
      exact ⟨d, m, hb, hfits', fun he => nomatch he⟩
  obtain ⟨e, n, hb, hfits, hred⟩ := hbalanced
  have hlen : (p ++ ⟨.right, c, y, l⟩ :: path).length < turns := by
    have hdepth := length_add_height_le p (fork .left d .nil y b)
    rw [List.length_append, List.length_cons]
    omega
  obtain ⟨t', w, hrun, hw, hrb', hsame'⟩ := eraseFinish_spec hat' hb hfits hred hlen
  refine ⟨t', w, ?_, hw, hrb', hsame.trans fun z hz => hsame' z fun hm => hz ?_⟩
  · have habove : above (p ++ ⟨.right, c, y, l⟩ :: path) = (above p).or (some y) := by
      cases p <;> rfl
    have hchild₁ : t₁.child y .right = b.root := by
      rw [RbTree.child, hy₁]
      rfl
    have hcolor₁ : t₁.rbColor y = d := by rw [rbColor, hy₁, RbNode.rbColor_fork]
    have hparent₂ : t₂.rbParent x = above path := by rw [rbParent, hx₂, RbNode.rbParent_fork]
    have hcolor₂ : t₂.rbColor x = c := by rw [rbColor, hx₂, RbNode.rbColor_fork]
    have hleft : ((t₂.rbSetParent y (above path)).rbSetColor y c).child x .left = some x₀ := by
      rw [RbTree.child, rbSetColor_node_of_ne _ _ _ hxy, rbSetParent_node_of_ne _ _ _ hxy, hx₂]
      rfl
    rw [habove] at hrun
    simp only [rbEraseTwo, hdown, h.rbParent_eq, Option.bind_eq_bind, Option.bind_some]
    simp only [show t.changeChild .left x (some y) (above path) = t₁ from rfl, hrun₂, hchild₁,
      hcolor₁, Option.bind_some, hparent₂, hcolor₂, hleft]
    exact hrun
  · exact List.mem_of_mem_erase hm

/-- `rb_erase` of a node of the tree. -/
theorem erase_spec {turns : ℕ} (h : At t [] u L) (hrb : IsRedBlack u) (hx : x ∈ L)
    (hturns : 2 * (L.length + 1).log2 < turns) :
    ∃ t' w, rbErase turns x t = some t' ∧ At t' [] w (L.erase x) ∧ IsRedBlack w ∧ Same L t t' := by
  obtain ⟨path, c, l, r, rfl, hat⟩ := h.toPlace .left hx
  have hlen : path.length < turns := by
    have hdepth := length_add_height_le path (fork .left c l x r)
    have hheight := hrb.height_le
    rw [hat.order] at hheight
    omega
  have hleft : t.child x .left = l.root := hat.child_eq
  have hright : t.child x .right = r.root := hat.child_other_eq
  cases hl : l.root with
  | none =>
    obtain rfl : l = .nil := by
      cases l with
      | nil => rfl
      | node => cases hl
    obtain ⟨t', w, hrun, hw⟩ := eraseOne_spec hat hrb hlen
    refine ⟨t', w, ?_, hw⟩
    simp only [rbErase, hleft, hright, hl]
    exact hrun
  | some x₀ =>
    cases hr : r.root with
    | none =>
      obtain rfl : r = .nil := by
        cases r with
        | nil => rfl
        | node => cases hr
      rw [← ColorTree.fork_other] at hrb
      obtain ⟨t', w, hrun, hw⟩ := eraseOne_spec hat.flip hrb hlen
      refine ⟨t', w, ?_, hw⟩
      simp only [rbErase, hleft, hright, hl, hr]
      rw [← hl]
      exact hrun
    | some r₀ =>
      obtain ⟨t', w, hrun, hw⟩ := eraseTwo_spec hat hl hr hrb hturns
      refine ⟨t', w, ?_, hw⟩
      simp only [rbErase, hleft, hright, hl, hr]
      exact hrun

end RbTree

end NerdRtos
