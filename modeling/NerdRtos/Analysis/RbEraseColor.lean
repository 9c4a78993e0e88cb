import NerdRtos.Analysis.RbLayout

/-!
# The balance after a node was taken out

`__rb_erase_color`. Behind a black node that was taken out the tree at its place is
short of a black node (`Short`). A turn of the loop makes up for it with at most three rotations, or
takes it to the place above.
-/

set_option autoImplicit false

namespace NerdRtos

open RedBlack
open RedBlack.ColorTree (fork)

namespace RbTree

variable {N : Type} [DecidableEq N] {t : RbTree N} {s : Side} {c d : Color} {a b u : ColorTree N}
  {x y p o : N} {path : List (Frame N)} {L : List N} {n : ℕ}

/-! ## A turn of the loop -/

/-- The other child of the parent is black when the loop goes on: a red one is rotated to the top.
The parent is red then. -/
theorem At.blackOther {sib : ColorTree N} (h : At t path (fork s c u p sib) L)
    (hfits : Fits (⟨s, c, p, sib⟩ :: path) .black (n + 1)) :
    ∃ o c' path' a b t', rbBlackOther s p t = some (o, t') ∧
      At t' path' (fork s c' u p (fork s .black a o b)) L ∧ Same L t t' ∧
      (∃ e, Balanced a e n) ∧ (∃ e, Balanced b e n) ∧ Fits path' c' (n + 1 + c'.weight) ∧
      (c' = .black → path' = path) := by
  obtain ⟨hup, d, hsib, hd⟩ := fits_cons_black.mp hfits
  obtain ⟨a, y, b, rfl⟩ := hsib.exists_fork s (.inr (by omega))
  have hother : t.child p s.other = some y := by rw [h.child_other_eq, ColorTree.root_fork]
  have hcolor : t.rbColor y = d := (at_fork.mp h.flip).rbColor_eq
  cases d with
  | black =>
    obtain ⟨m, -, hm, ha, hb⟩ := balanced_fork_black.mp hsib
    obtain rfl : m = n := by omega
    have hblack : ¬t.rbIsRed y = true := by simp [rbIsRed, hcolor]
    refine ⟨y, c, path, a, b, t, ?_, h, Same.refl L t, ha, hb, hup, fun _ => rfl⟩
    simp only [rbBlackOther, hother, Option.bind_eq_bind, Option.bind_some, if_neg hblack,
      Option.pure_def]
  | red =>
    obtain rfl : c = .black := by
      cases c with
      | red => cases hd rfl
      | black => rfl
    obtain ⟨-, ha, hb⟩ := balanced_fork_red.mp hsib
    obtain ⟨a₁, o, a₂, rfl⟩ := ha.exists_fork s (.inr (by omega))
    obtain ⟨m, -, hm, ha₁, ha₂⟩ := balanced_fork_black.mp ha
    obtain rfl : m = n := by omega
    have hred : t.rbIsRed y = true := by
      rw [rbIsRed, hcolor]
      rfl
    obtain ⟨hat₁, hsame₁⟩ := h.setColor_other (ColorTree.root_fork ..) .black
    obtain ⟨hat₂, hsame₂⟩ := hat₁.setColor (ColorTree.root_fork ..) .red
    rw [ColorTree.paint_fork, ColorTree.paint_fork] at hat₂
    obtain ⟨t₃, hrun₃, hat₃, hsame₃⟩ := hat₂.rotate
    have hat := at_fork.mp hat₃
    have hnext : t₃.child p s.other = some o := by rw [hat.child_other_eq, ColorTree.root_fork]
    refine ⟨o, .red, ⟨s, .black, y, b⟩ :: path, a₁, a₂, t₃, ?_, hat,
      (hsame₁.trans hsame₂).trans hsame₃, ha₁, ha₂, .black hb hup, fun he => nomatch he⟩
    simp only [rbBlackOther, hother, Option.bind_eq_bind, Option.bind_some, if_pos hred, hrun₃,
      hnext, Option.pure_def]

/-- Its child on the outside is red when the loop ends here: a red one on the inside is rotated
there. -/
theorem At.redOutside (h : At t path (fork s c u p (fork s .black a o b)) L)
    (ha : ∃ e, Balanced a e n) (hb : ∃ e, Balanced b e n)
    (hred : ¬(a.color = .black ∧ b.color = .black)) :
    ∃ o' a' b' t', rbRedOutside s p o t = some (o', t') ∧
      At t' path (fork s c u p (fork s .black a' o' b')) L ∧ Same L t t' ∧
      (∃ e, Balanced a' e n) ∧ Balanced b' .red n := by
  have ho := at_fork.mp h.flip
  have houtside : t.blackOrNull (t.child o s.other) = decide (b.color = .black) := by
    rw [ho.child_other_eq]
    exact (at_fork.mp ho.flip).here.blackOrNull_root
  obtain ⟨e, ha⟩ := ha
  obtain ⟨f, hb⟩ := hb
  cases hcolor : b.color with
  | red =>
    refine ⟨o, a, b, t, ?_, h, Same.refl L t, ⟨e, ha⟩, ?_⟩
    · rw [rbRedOutside, houtside, hcolor]
      rfl
    · obtain rfl : f = .red := hb.color_eq.symm.trans hcolor
      exact hb
  | black =>
    obtain rfl : f = .black := hb.color_eq.symm.trans hcolor
    obtain rfl : e = .red := by
      cases e with
      | red => rfl
      | black => exact absurd ⟨ha.color_eq, hcolor⟩ hred
    obtain ⟨a₁, w, a₂, rfl⟩ := ha.exists_fork s (.inl rfl)
    obtain ⟨-, ha₁, ha₂⟩ := balanced_fork_red.mp ha
    have hnear : t.child o s = some w := by rw [ho.child_eq, ColorTree.root_fork]
    obtain ⟨hat₁, hsame₁⟩ := ho.setColor_child (ColorTree.root_fork ..) .black
    obtain ⟨hat₂, hsame₂⟩ := hat₁.setColor (ColorTree.root_fork ..) .red
    rw [ColorTree.paint_fork, ColorTree.paint_fork] at hat₂
    have hflip := hat₂.flip
    rw [← ColorTree.fork_other s .black] at hflip
    obtain ⟨t₃, hrun₃, hat₃, hsame₃⟩ := hflip.rotate
    rw [ColorTree.fork_other, ColorTree.fork_other] at hat₃
    have hat := (at_fork.mpr hat₃).flip
    rw [Side.other_other] at hat
    have hnext : t₃.child p s.other = some w := by rw [hat.child_other_eq, ColorTree.root_fork]
    refine ⟨w, a₁, fork s .red a₂ o b, t₃, ?_, hat, (hsame₁.trans hsame₂).trans hsame₃,
      ⟨_, ha₁⟩, balanced_fork_red.mpr ⟨rfl, ha₂, hb⟩⟩
    rw [rbRedOutside, houtside, hcolor]
    simp only [decide_true, if_pos, hnear, Option.bind_eq_bind, Option.bind_some, hrun₃, hnext,
      Option.pure_def]

/-- What a turn of the loop leaves. -/
inductive EraseTurn (L : List N) (s : Side) (u : ColorTree N) (p : N) (path : List (Frame N))
    (n : ℕ) : Bool × RbTree N → Prop
  /-- The whole is a red-black tree again. -/
  | done {t' : RbTree N} {w : ColorTree N} (hat : At t' [] w L) (hrb : IsRedBlack w) :
    EraseTurn L s u p path n (true, t')
  /-- The tree of the parent is short, and the place of the parent is no deeper or it is red. -/
  | up {t' : RbTree N} {w : ColorTree N} {path' : List (Frame N)} {m : ℕ} (hat : At t' path' w L)
    (hroot : w.root = some p) (hshort : Short w m) (hfits : Fits path' .black (m + 1))
    (hless : w.color = .red ∨ path' = path) : EraseTurn L s u p path n (false, t')

/-- A turn of the loop of `__rb_erase_color` repairs the tree or goes on one level higher. -/
theorem At.eraseTurn {sib : ColorTree N} (h : At t path (fork s c u p sib) L)
    (hu : Balanced u .black n) (hfits : Fits (⟨s, c, p, sib⟩ :: path) .black (n + 1)) :
    ∃ r, rbEraseTurn s p t = some r ∧ EraseTurn L s u p path n r ∧ Same L t r.2 := by
  obtain ⟨o, c', path', a, b, t₁, hrun₁, hat₁, hsame₁, ha, hb, hup, hless⟩ := h.blackOther hfits
  have ho := at_fork.mp hat₁.flip
  by_cases hboth : a.color = .black ∧ b.color = .black
  · obtain ⟨hat₂, hsame₂⟩ := hat₁.setColor_other (ColorTree.root_fork ..) .red
    rw [ColorTree.paint_fork] at hat₂
    refine ⟨(false, t₁.rbSetColor o .red), ?_, ?_, hsame₁.trans hsame₂⟩
    · simp only [rbEraseTurn, hrun₁, Option.bind_eq_bind, Option.bind_some, ho.bothBlack,
        decide_eq_true_eq, if_pos hboth, Option.pure_def]
    · obtain ⟨e, ha⟩ := ha
      obtain ⟨f, hb⟩ := hb
      obtain rfl : e = .black := ha.color_eq.symm.trans hboth.1
      obtain rfl : f = .black := hb.color_eq.symm.trans hboth.2
      have hother : Balanced (fork s .red a o b) .red n := balanced_fork_red.mpr ⟨rfl, ha, hb⟩
      have hblack : Balanced (fork s .black u p (fork s .red a o b)) .black (n + 1) :=
        balanced_fork_black.mpr ⟨n, rfl, rfl, ⟨_, hu⟩, _, hother⟩
      cases c' with
      | red =>
        refine .up hat₂ (ColorTree.root_fork ..) ⟨fun _ => ?_, fun he => ?_⟩ hup.of_red
          (.inl (ColorTree.color_fork ..))
        · rw [ColorTree.paint_fork]
          exact hblack
        · rw [ColorTree.color_fork] at he
          cases he
      | black =>
        refine .up hat₂ (ColorTree.root_fork ..) ⟨fun he => ?_, fun _ => hblack⟩ hup
          (.inr (hless rfl))
        rw [ColorTree.color_fork] at he
        cases he
  · obtain ⟨o', a', b', t₂, hrun₂, hat₂, hsame₂, ⟨_, ha'⟩, hb'⟩ := hat₁.redOutside ha hb hboth
    obtain ⟨b₁, w, b₂, rfl⟩ := hb'.exists_fork s (.inl rfl)
    obtain ⟨-, hb₁, hb₂⟩ := balanced_fork_red.mp hb'
    have hcolor : t₂.rbColor p = c' := hat₂.rbColor_eq
    obtain ⟨hat₃, hsame₃⟩ := hat₂.setColor_other (ColorTree.root_fork ..) c'
    obtain ⟨hat₄, hsame₄⟩ := hat₃.setColor (ColorTree.root_fork ..) .black
    rw [ColorTree.paint_fork, ColorTree.paint_fork] at hat₄
    have ho₄ := at_fork.mp hat₄.flip
    have hfar := ho₄.child_other_eq.trans (ColorTree.root_fork ..)
    obtain ⟨hat₅, hsame₅⟩ := ho₄.setColor_other (ColorTree.root_fork ..) .black
    rw [ColorTree.paint_fork] at hat₅
    have hwhole := (at_fork.mpr hat₅).flip
    rw [Side.other_other] at hwhole
    obtain ⟨t₆, hrun₆, hat₆, hsame₆⟩ := hwhole.rotate
    refine ⟨(true, t₆), ?_, .done hat₆.toRoot (hup.plug ?_), ?_⟩
    · simp only [rbEraseTurn, hrun₁, Option.bind_eq_bind, Option.bind_some, ho.bothBlack,
        decide_eq_true_eq, if_neg hboth, hrun₂, hcolor, hfar, hrun₆, Option.pure_def]
    · refine balanced_fork ?_ ?_
      · exact balanced_fork_black.mpr ⟨n, rfl, rfl, ⟨_, hu⟩, _, ha'⟩
      · exact balanced_fork_black.mpr ⟨n, rfl, rfl, ⟨_, hb₁⟩, _, hb₂⟩
    · exact ((((hsame₁.trans hsame₂).trans hsame₃).trans hsame₄).trans hsame₅).trans hsame₆

/-! ## The loop -/

/-- What the loop leaves is a red-black tree with the node that it ends at painted black. -/
theorem eraseLoop_spec {turns : ℕ} (h : At t path u L) (hshort : Short u n)
    (hfits : Fits path .black (n + 1)) (hturns : 0 < turns)
    (hlong : u.color = .black → path.length < turns) :
    ∃ r path' w, rbEraseLoop turns u.root (above path) t = some r ∧ r.1 = w.root ∧
      At r.2 path' w L ∧ IsRedBlack (plug path' (w.paint .black)) ∧ Same L t r.2 := by
  induction turns generalizing t path u n with
  | zero => omega
  | succ turns ih =>
    have hblack := h.here.blackOrNull_root
    by_cases hgo : u.color = .black ∧ path ≠ []
    · obtain ⟨hcolor, hne⟩ := hgo
      cases path with
      | nil => cases hne rfl
      | cons f path =>
        obtain ⟨s, c, p, sib⟩ := f
        have hp : At t path (fork s c u p sib) L := at_fork.mpr h
        have hsib : sib ≠ .nil := by
          obtain ⟨-, d, hsib, -⟩ := fits_cons_black.mp hfits
          rintro rfl
          cases hsib
        have hside := side_eq hp.node_eq (hp.root_ne (.inr hsib))
        have hcond : (t.blackOrNull u.root && decide (u.root ≠ t.rbNode)) = true := by
          rw [hblack, hcolor, Bool.and_eq_true]
          exact ⟨rfl, decide_eq_true fun he => hne (h.root_eq_rbNode.mp he)⟩
        obtain ⟨r, hrun, hturn, hsame⟩ := hp.eraseTurn (hshort.2 hcolor) hfits
        rw [rbEraseLoop, if_pos hcond]
        simp only [above, Option.bind_eq_bind, Option.bind_some, hside, hrun]
        cases hturn with
        | @done t' w hat hrb =>
          refine ⟨_, [], w, rfl, hat.way, hat, ?_, hsame⟩
          obtain ⟨m, hrb⟩ := hrb
          exact hrb.paint_black
        | @up t' w path' m hat hroot hshort' hfits' hless =>
          have hparent : t'.rbParent p = above path' := by
            cases w with
            | nil => cases hroot
            | node d l y k =>
              obtain rfl : y = p := Option.some_inj.mp hroot
              rw [rbParent, hat.here.1]
          have hlen := hlong hcolor
          rw [List.length_cons] at hlen
          obtain ⟨r, path'', w', hrun', hr, hat', hrb, hsame'⟩ := ih hat hshort' hfits' (by omega)
            fun hw => by
              rcases hless with hred | rfl
              · rw [hred] at hw
                cases hw
              · omega
          rw [hroot, ← hparent] at hrun'
          exact ⟨r, path'', w', hrun', hr, hat', hrb, hsame.trans hsame'⟩
    · have hcond : ¬(t.blackOrNull u.root && decide (u.root ≠ t.rbNode)) = true := by
        rw [hblack, Bool.and_eq_true, decide_eq_true_eq, decide_eq_true_eq]
        rintro ⟨hcolor, hroot⟩
        exact hgo ⟨hcolor, fun he => hroot (h.root_eq_rbNode.mpr he)⟩
      refine ⟨(u.root, t), path, u, by rw [rbEraseLoop, if_neg hcond], rfl, h, ?_, Same.refl L t⟩
      cases hcolor : u.color with
      | red => exact hfits.plug (hshort.1 hcolor)
      | black =>
        obtain rfl : path = [] := by
          by_contra hne
          exact hgo ⟨hcolor, hne⟩
        exact (hshort.2 hcolor).paint_black

/-- The tree that is short becomes one that is not. -/
theorem eraseColor_spec {turns : ℕ} (h : At t path u L) (hshort : Short u n)
    (hfits : Fits path .black (n + 1)) (hturns : path.length < turns) :
    ∃ t' w, rbEraseColor turns u.root (above path) t = some t' ∧ At t' [] w L ∧ IsRedBlack w ∧
      Same L t t' := by
  obtain ⟨⟨node, t₁⟩, path', w, hrun, hr, hat, hrb, hsame⟩ :=
    eraseLoop_spec h hshort hfits (by omega) fun _ => hturns
  obtain rfl : node = w.root := hr
  cases hroot : w.root with
  | none =>
    obtain rfl : w = .nil := by
      cases w with
      | nil => rfl
      | node => cases hroot
    refine ⟨t₁, _, ?_, hat.toRoot, hrb, hsame⟩
    simp only [rbEraseColor, hrun, hroot, Option.bind_eq_bind, Option.bind_some, Option.pure_def]
  | some y =>
    obtain ⟨hat', hsame'⟩ := hat.setColor hroot .black
    refine ⟨_, _, ?_, hat'.toRoot, hrb, hsame.trans hsame'⟩
    simp only [rbEraseColor, hrun, hroot, Option.bind_eq_bind, Option.bind_some, Option.pure_def]

end RbTree

end NerdRtos
