import NerdRtos.Analysis.RbLayout

/-!
# Linking a node in

`rb_link_node` at a place where there is no node, and `rb_insert_color`. The loop keeps that the
whole is a red-black tree but for one thing: the node that it looks at is red, where only a black
one may fit. A turn takes the node two levels up, or ends with two rotations at most.
-/

set_option autoImplicit false

namespace NerdRtos

open RedBlack
open RedBlack.ColorTree (fork)

/-- The order of the nodes with `n` linked in there: next to the parent, on the side of the
pointer. -/
def RbLink.insert {N : Type} [DecidableEq N] (n : N) (L : List N) : RbLink N → List N
  | .root => [n]
  | .child s p => L.flatMap fun x =>
    if x = p then match s with | .left => [n, x] | .right => [x, n] else [x]

namespace RbTree

variable {N : Type} [DecidableEq N] {t : RbTree N} {s s' : Side} {a b e u : ColorTree N} {x p g : N}
  {path : List (Frame N)} {L : List N} {n : ℕ}

/-- The node comes to the outside of its parent; the two may change places. -/
theorem At.toOutside {sib : ColorTree N}
    (h : At t path (fork s .black (fork s' .red (fork s .red a x b) p sib) g u) L) :
    ∃ x' p' a' b' e' t', rbToOutside s x p t = some (x', p', t') ∧
      At t' path (fork s .black (fork s .red (fork s .red a' x' b') p' e') g u) L ∧ Same L t t' ∧
      ∀ n, Balanced a .black n → Balanced b .black n → Balanced sib .black n →
        Balanced a' .black n ∧ Balanced b' .black n ∧ Balanced e' .black n := by
  have hp := at_fork.mp h
  by_cases hs : s' = s
  · subst hs
    have hne : t.child p s'.other ≠ some x := by
      intro he
      have hsib := hp.child_other_eq.symm.trans he
      have hroots := hp.root_ne (.inl (ColorTree.fork_ne_nil _ _ _ _ _))
      rw [ColorTree.root_fork] at hroots
      exact hroots hsib
    refine ⟨x, p, a, b, sib, t, if_neg hne, h, Same.refl L t, ?_⟩
    intro n ha hb hsib
    exact ⟨ha, hb, hsib⟩
  · obtain rfl : s' = s.other := Side.eq_other hs
    have heq : t.child p s.other = some x := by
      have hc := hp.child_eq
      rw [ColorTree.root_fork] at hc
      exact hc
    have hin : At t path (fork s .black (fork s .red sib p (fork s .red a x b)) g u) L := by
      rw [ColorTree.fork_other] at h
      exact h
    obtain ⟨t', hrun, hat, hsame⟩ := hin.rotate_child
    refine ⟨p, x, sib, a, b, t', ?_, hat, hsame, ?_⟩
    · rw [rbToOutside, if_pos heq, hrun]
      rfl
    · intro n ha hb hsib
      exact ⟨hsib, ha, hb⟩

/-- A turn below a red uncle: the colours of the grandparent and its children are exchanged. -/
theorem At.insertTurn_red {sib : ColorTree N} (hu : u.color = .red)
    (h : At t path (fork s .black (fork s' .red (fork s .red a x b) p sib) g u) L) :
    ∃ t', rbInsertTurn s x p g t = some (g, t') ∧
      At t' path (fork s .red (fork s' .black (fork s .red a x b) p sib) g (u.paint .black)) L ∧
      Same L t t' := by
  obtain ⟨v, hv⟩ : ∃ v, u.root = some v := by
    cases u with
    | nil => cases hu
    | node c l v r => exact ⟨v, rfl⟩
  have hred : t.rbIsRed v = true := by
    have hcolor := (at_fork.mp h.flip).here.rbColor_root hv
    rw [rbIsRed, hcolor, hu]
    rfl
  have huncle : (t.child g s.other).filter t.rbIsRed = some v := by
    rw [h.child_other_eq, hv, Option.filter_some, if_pos hred]
  obtain ⟨hat₁, hsame₁⟩ := h.setColor_other hv .black
  obtain ⟨hat₂, hsame₂⟩ := hat₁.setColor_child (ColorTree.root_fork ..) .black
  obtain ⟨hat₃, hsame₃⟩ := hat₂.setColor (ColorTree.root_fork ..) .red
  rw [ColorTree.paint_fork, ColorTree.paint_fork] at hat₃
  refine ⟨_, ?_, hat₃, (hsame₁.trans hsame₂).trans hsame₃⟩
  rw [rbInsertTurn, huncle]

/-- A turn below a black uncle: the parent takes the place of the grandparent. -/
theorem At.insertTurn_black {sib : ColorTree N} (hu : u.color = .black)
    (h : At t path (fork s .black (fork s' .red (fork s .red a x b) p sib) g u) L) :
    ∃ x' p' a' b' e' t', rbInsertTurn s x p g t = some (x', t') ∧
      At t' path (fork s .black (fork s .red a' x' b') p' (fork s .red e' g u)) L ∧ Same L t t' ∧
      ∀ n, Balanced a .black n → Balanced b .black n → Balanced sib .black n →
        Balanced a' .black n ∧ Balanced b' .black n ∧ Balanced e' .black n := by
  have huncle : (t.child g s.other).filter t.rbIsRed = none := by
    rw [h.child_other_eq]
    cases hv : u.root with
    | none => rfl
    | some v =>
      have hcolor := (at_fork.mp h.flip).here.rbColor_root hv
      have hred : ¬t.rbIsRed v = true := by simp [rbIsRed, hcolor, hu]
      rw [Option.filter_some, if_neg hred]
  obtain ⟨x', p', a', b', e', t₁, hrun₁, hat₁, hsame₁, hbal⟩ := h.toOutside
  obtain ⟨hat₂, hsame₂⟩ := hat₁.setColor_child (ColorTree.root_fork ..) .black
  obtain ⟨hat₃, hsame₃⟩ := hat₂.setColor (ColorTree.root_fork ..) .red
  rw [ColorTree.paint_fork, ColorTree.paint_fork] at hat₃
  have hflip := hat₃.flip
  rw [← ColorTree.fork_other s .black] at hflip
  obtain ⟨t₄, hrun₄, hat₄, hsame₄⟩ := hflip.rotate
  rw [ColorTree.fork_other, ColorTree.fork_other] at hat₄
  refine ⟨x', p', a', b', e', t₄, ?_, hat₄, ((hsame₁.trans hsame₂).trans hsame₃).trans hsame₄, hbal⟩
  rw [rbInsertTurn, huncle]
  simp only [hrun₁, Option.bind_eq_bind, Option.bind_some, hrun₄, Option.pure_def]

/-- The loop ends at a node whose parent is black or missing. -/
theorem insertLoop_exit {turns : ℕ} (h : (t.rbParent x).filter t.rbIsRed = none) :
    rbInsertLoop (turns + 1) x t = some t := by
  rw [rbInsertLoop, h]

/-- A turn of the loop at a node with a red parent, which has a parent then. -/
theorem At.insertLoop_step {sib : ColorTree N} (turns : ℕ)
    (h : At t path (fork s .black (fork s' .red (fork s .red a x b) p sib) g u) L) :
    rbInsertLoop (turns + 1) x t = (rbInsertTurn s x p g t).bind fun r =>
      rbInsertLoop turns r.1 r.2 := by
  have hp := at_fork.mp h
  have hx := at_fork.mp hp
  have hred : t.rbIsRed p = true := by
    rw [rbIsRed, hp.rbColor_eq]
    rfl
  have hparent : (t.rbParent x).filter t.rbIsRed = some p := by
    rw [hx.rbParent_eq, above, Option.filter_some, if_pos hred]
  have hside := side_eq h.node_eq (h.root_ne (.inl (ColorTree.fork_ne_nil _ _ _ _ _)))
  rw [ColorTree.root_fork] at hside
  rw [rbInsertLoop, hparent]
  simp only [hp.rbParent_eq, above, Option.bind_eq_bind, Option.bind_some, hside]

/-- What the loop leaves is a red-black tree with its root painted black. -/
theorem insertLoop_spec {turns : ℕ} (hturns : path.length < turns)
    (h : At t path (fork s .red a x b) L) (ha : Balanced a .black n) (hb : Balanced b .black n)
    (hfits : Fits path .black n) :
    ∃ t' u, rbInsertLoop turns x t = some t' ∧ At t' [] u L ∧ IsRedBlack (u.paint .black) ∧
      Same L t t' := by
  induction turns generalizing t s a b x path n with
  | zero => omega
  | succ turns ih =>
    have hbal : Balanced (fork s .red a x b) .red n := balanced_fork_red.mpr ⟨rfl, ha, hb⟩
    cases hfits with
    | root =>
      refine ⟨t, _, insertLoop_exit ?_, h, hbal.paint_black, Same.refl L t⟩
      rw [h.rbParent_eq]
      rfl
    | @black s' p sib path _ d _ hsib hup =>
      refine ⟨t, _, insertLoop_exit ?_, h.toRoot, ?_, Same.refl L t⟩
      · have hp : At t path (fork s' .black (fork s .red a x b) p sib) L := at_fork.mpr h
        have hblack : ¬t.rbIsRed p = true := by simp [rbIsRed, hp.rbColor_eq]
        rw [h.rbParent_eq, above, Option.filter_some, if_neg hblack]
      · have hfit : Fits (⟨s', .black, p, sib⟩ :: path) .red n := .black hsib hup
        obtain ⟨m, hwhole⟩ := hfit.plug hbal
        exact hwhole.paint_black
    | @red s' p sib path _ hsib hup =>
      obtain ⟨sg, g, u, d, up, rfl, hu, hup⟩ := hup.exists_black
      -- the same node, seen from the side on which its parent is
      obtain ⟨a', b', hab, ha', hb'⟩ : ∃ a' b', fork s .red a x b = fork sg .red a' x b' ∧
          Balanced a' .black n ∧ Balanced b' .black n := by
        by_cases hs : s = sg
        · exact ⟨a, b, by rw [hs], ha, hb⟩
        · exact ⟨b, a, by rw [Side.eq_other hs, ColorTree.fork_other], hb, ha⟩
      rw [hab] at h
      have hgp : At t up (fork sg .black (fork s' .red (fork sg .red a' x b') p sib) g u) L :=
        at_fork.mpr (at_fork.mpr h)
      rw [hgp.insertLoop_step]
      simp only [List.length_cons] at hturns
      cases hcolor : u.color with
      | red =>
        obtain ⟨t₁, hrun, hat, hsame⟩ := hgp.insertTurn_red hcolor
        have hparent : Balanced (fork s' .black (fork sg .red a' x b') p sib) .black (n + 1) :=
          balanced_fork_black.mpr
            ⟨n, rfl, rfl, ⟨_, balanced_fork_red.mpr ⟨rfl, ha', hb'⟩⟩, _, hsib⟩
        have huncle : Balanced (u.paint .black) .black (n + 1) := by
          cases hu with
          | nil => cases hcolor
          | red hl hr => exact .black hl hr
          | black => cases hcolor
        obtain ⟨t', w, hrest, hw, hrb, hsame'⟩ := ih (by omega) hat hparent huncle hup
        refine ⟨t', w, ?_, hw, hrb, hsame.trans hsame'⟩
        rw [hrun]
        exact hrest
      | black =>
        obtain ⟨x', p', a'', b'', e, t₁, hrun, hat, hsame, hkeep⟩ := hgp.insertTurn_black hcolor
        obtain ⟨ha'', hb'', he⟩ := hkeep n ha' hb' hsib
        have hublack : Balanced u .black n := by
          obtain rfl : d = .black := hu.color_eq.symm.trans hcolor
          exact hu
        have hfit : Fits (⟨sg, .black, p', fork sg .red e g u⟩ :: up) .black n :=
          .black (balanced_fork_red.mpr ⟨rfl, he, hublack⟩) hup
        obtain ⟨t', w, hrest, hw, hrb, hsame'⟩ :=
          ih (by simp only [List.length_cons]; omega) (at_fork.mp hat) ha'' hb'' hfit
        refine ⟨t', w, ?_, hw, hrb, hsame.trans hsame'⟩
        rw [hrun]
        exact hrest

/-- A black root does not spoil a tree with a node. -/
theorem insertColor_spec {turns : ℕ} (hturns : path.length < turns)
    (h : At t path (fork s .red a x b) L) (ha : Balanced a .black n) (hb : Balanced b .black n)
    (hfits : Fits path .black n) :
    ∃ t' u, rbInsertColor turns x t = some t' ∧ At t' [] u L ∧ IsRedBlack u ∧ Same L t t' := by
  obtain ⟨t₁, w, hrun, hw, hrb, hsame⟩ := insertLoop_spec hturns h ha hb hfits
  obtain ⟨r, hr⟩ : ∃ r, w.root = some r := by
    have hx : x ∈ L := h.mem_iff.mpr (.inl (ColorTree.mem_root (ColorTree.root_fork ..)))
    rw [← hw.order, plug_nil] at hx
    cases w with
    | nil => cases hx
    | node c l r k => exact ⟨r, rfl⟩
  have hroot : t₁.rbNode = some r := hw.way.trans hr
  obtain ⟨hat, hsame'⟩ := hw.setColor hr .black
  refine ⟨_, _, ?_, hat, hrb, hsame.trans hsame'⟩
  simp only [rbInsertColor, hrun, Option.bind_eq_bind, Option.bind_some, hroot, Option.pure_def]

/-! ## A new node -/

/-- The order of the nodes with a new one at an empty place. -/
theorem insert_linkOf (hnd : (plug path ColorTree.nil).inorder.Nodup) (n : N) :
    (linkOf path).insert n (plug path .nil).inorder = before path ++ n :: after path := by
  cases path with
  | nil => rfl
  | cons f path =>
    obtain ⟨s, c, p, sib⟩ := f
    have hskip : ∀ l : List N, p ∉ l → (l.flatMap fun x =>
        if x = p then match s with | .left => [n, x] | .right => [x, n] else [x]) = l := by
      intro l hl
      induction l with
      | nil => rfl
      | cons y l ih =>
        rw [List.mem_cons, not_or] at hl
        rw [List.flatMap_cons, ih hl.2, if_neg (Ne.symm hl.1)]
        rfl
    rw [inorder_plug, before, after] at hnd ⊢
    cases s with
    | left =>
      simp only [ColorTree.inorder, List.append_nil, List.cons_append, List.nodup_append,
        List.nodup_cons] at hnd ⊢
      have hbefore : p ∉ before path := fun hm => hnd.2.2 p hm p (by simp) rfl
      rw [linkOf, RbLink.insert, List.flatMap_append, List.flatMap_cons, if_pos rfl,
        hskip _ hbefore, hskip _ hnd.2.1.1]
      rfl
    | right =>
      simp only [ColorTree.inorder, List.append_nil, List.append_assoc, List.nodup_append,
        List.singleton_append, List.nodup_cons] at hnd ⊢
      have hbefore : p ∉ before path := fun hm => hnd.2.2 p hm p (by simp) rfl
      have hsib : p ∉ sib.inorder := fun hm => hnd.2.1.2.2 p hm p (by simp) rfl
      rw [linkOf, RbLink.insert, List.flatMap_append, List.flatMap_append, List.flatMap_cons,
        if_pos rfl, hskip _ hbefore, hskip _ hsib, hskip _ hnd.2.1.2.1.1]
      simp

/-- A red node is at the empty place. -/
theorem linkNode_at (h : At t path .nil L) {n : N} (hn : n ∉ L) :
    At (t.rbLinkNode n (above path) (linkOf path)) path (fork .left .red .nil n .nil)
      (before path ++ n :: after path) ∧
    Same (n :: L) t (t.rbLinkNode n (above path) (linkOf path)) := by
  have hoff : n ∉ offPath path := fun hm => hn (h.mem_iff.mpr (.inr hm))
  have hne : ∀ z ∈ offPath path, z ≠ n := fun z hz he => hoff (he ▸ hz)
  have hseq : (plug path (fork .left .red .nil n .nil)).inorder =
      before path ++ n :: after path := by
    rw [inorder_plug]
    simp [fork, ColorTree.inorder]
  have hnd : (before path ++ n :: after path).Nodup := by
    rw [← hseq, nodup_plug]
    refine ⟨by simp [fork, ColorTree.inorder], h.apart.2.1, ?_⟩
    intro z hz
    obtain rfl : z = n := by simpa [fork, ColorTree.inorder] using hz
    exact hoff
  let t₁ := t.upd n fun _ => { rbParent := above path }
  have hself : t₁.node n = { rbParent := above path } := by simp [t₁, upd]
  have hway₁ : PathLayout t₁ path none :=
    h.way.congr rfl fun z hz => upd_node_of_ne t n _ (hne z hz)
  cases path with
  | nil =>
    refine ⟨⟨⟨hself, trivial, trivial⟩, rfl, hseq, hnd⟩, ?_⟩
    intro z hz
    show t₁.node z = t.node z
    exact upd_node_of_ne t n _ fun he => hz (List.mem_cons.mpr (.inl he))
  | cons f path =>
    obtain ⟨hf, hsib, hup⟩ := hway₁
    have hnf : n ≠ f.node := fun he => hoff (by simp [he])
    have hndoff := h.apart.2.1
    simp only [offPath_cons, List.cons_append, List.nodup_cons, List.mem_append, not_or] at hndoff
    refine ⟨⟨⟨?_, trivial, trivial⟩, ⟨?_, hsib.congr fun z hz => ?_, hup.congr rfl fun z hz => ?_⟩,
      hseq, hnd⟩, ?_⟩
    · exact (setChild_node_of_ne t₁ _ _ _ hnf).trans hself
    · exact setChild_node_near t₁ _ _ _ _ hf
    · exact setChild_node_of_ne t₁ _ _ _ (ne_of_mem_of_not_mem hz hndoff.1.1)
    · exact setChild_node_of_ne t₁ _ _ _ (ne_of_mem_of_not_mem hz hndoff.1.2)
    · intro z hz
      rw [List.mem_cons, not_or] at hz
      have hzf : z ≠ f.node := fun he => hz.2 (h.mem_iff.mpr (.inr (by simp [he])))
      exact (setChild_node_of_ne t₁ _ _ _ hzf).trans (upd_node_of_ne t n _ hz.1)

/-- `rb_link_node` and `rb_insert_color` at a pointer that is `NULL`. -/
theorem link_spec {turns : ℕ} {link : RbLink N} {n : N} (h : At t [] u L) (hrb : IsRedBlack u)
    (hn : n ∉ L) (hin : ∀ p, link.parent = some p → p ∈ L) (hnull : t.load link = none)
    (hturns : 2 * (L.length + 1).log2 < turns) :
    ∃ t' u', rbInsertColor turns n (t.rbLinkNode n link.parent link) = some t' ∧
      At t' [] u' (link.insert n L) ∧ IsRedBlack u' ∧ Same (n :: L) t t' := by
  obtain ⟨path, rfl, hplace, rfl⟩ := exists_place h hin hnull
  obtain ⟨c, m, hfits, hbal⟩ := hrb.focus
  obtain ⟨rfl, rfl⟩ : c = .black ∧ m = 0 := by
    cases hbal
    exact ⟨rfl, rfl⟩
  have hlen : path.length < turns := by
    have hdepth := length_add_height_le path ColorTree.nil
    have hheight := hrb.height_le
    have hlength : (plug path ColorTree.nil).inorder = L := h.order
    rw [hlength] at hheight
    omega
  obtain ⟨hat, hsame⟩ := linkNode_at hplace hn
  obtain ⟨t', u', hrun, hat', hrb', hsame'⟩ := insertColor_spec hlen hat .nil .nil hfits
  have hmem : ∀ z, z ∈ before path ++ n :: after path ↔ z ∈ n :: L := by
    intro z
    rw [← hplace.order, inorder_plug]
    simp only [ColorTree.inorder, List.mem_append, List.mem_cons, List.not_mem_nil, or_false]
    tauto
  have hseq : (linkOf path).insert n L = before path ++ n :: after path := by
    have hnd := hplace.nodup
    rw [← hplace.order] at hnd ⊢
    exact insert_linkOf hnd n
  rw [parent_linkOf, hseq]
  refine ⟨t', u', hrun, hat', hrb', hsame.trans ?_⟩
  intro z hz
  exact hsame' z fun hm => hz ((hmem z).mp hm)

end RbTree

end NerdRtos
