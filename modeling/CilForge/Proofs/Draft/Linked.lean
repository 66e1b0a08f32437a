import CilForge.Draft
import CilForge.Proofs.Body.Refines

/-!
# Drafts finished as linked nodes

Finishing a draft takes the same steps for nodes as for the list of lines, and each is answered alike
(`Mirrored`). So the nodes that a draft is finished to read as the body it is finished to, as long as
there are handles for its instructions.
-/

namespace CilForge

open LinkedBody

/-- Two computations that are answered alike and keep nodes a mirror of the list, if there are handles for
the instructions that they make. -/
def Mirrored {α : Type} (made : Nat) (x : ExceptT Fault (StateM LinkedBody) α) (y : Edit α) : Prop :=
  ∀ (a : LinkedBody) (b : Body), a.Mirrors b → b.Numbered → b.nextIndex + made ≤ 2 ^ 32 →
    Follows (x a) (y b) ∧ (y b).2.Numbered ∧ (y b).2.nextIndex ≤ b.nextIndex + made

namespace Mirrored

variable {α β : Type} {m n : Nat} {x : ExceptT Fault (StateM LinkedBody) α} {y : Edit α}

theorem lift (e : Except Fault α) : Mirrored 0 (ExceptT.mk (pure e)) (ExceptT.mk (pure e)) :=
  fun _ _ mirrors num _ => ⟨⟨rfl, mirrors⟩, num, Nat.le_refl _⟩

theorem pure (v : α) : Mirrored 0 (Pure.pure v) (Pure.pure v) := lift (.ok v)

theorem bind {k : α → ExceptT Fault (StateM LinkedBody) β} {k' : α → Edit β} (first : Mirrored m x y)
    (rest : ∀ v, Mirrored n (k v) (k' v)) : Mirrored (m + n) (x >>= k) (y >>= k') := by
  intro a b mirrors num room
  obtain ⟨⟨same, mirrors₁⟩, num₁, le₁⟩ := first a b mirrors num (by omega)
  rw [run_bind, run_bind]
  cases came : x a with
  | mk r a₁ =>
    cases came' : y b with
    | mk r' b₁ =>
      rw [came, came'] at same mirrors₁
      rw [came'] at num₁ le₁
      cases same
      dsimp only at le₁
      cases r with
      | error e => exact ⟨⟨rfl, mirrors₁⟩, num₁, Nat.le_trans le₁ (by omega)⟩
      | ok v =>
        obtain ⟨follows, num₂, le₂⟩ := rest v a₁ b₁ mirrors₁ num₁ (by omega)
        exact ⟨follows, num₂, Nat.le_trans le₂ (by omega)⟩

theorem forM {f : α → ExceptT Fault (StateM LinkedBody) Unit} {g : α → Edit Unit} (each : ∀ v, Mirrored 0 (f v) (g v)) :
    ∀ l : List α, Mirrored 0 (l.forM f) (l.forM g)
  | [] => .pure ()
  | v :: l => bind (each v) fun _ => forM each l

theorem mapM {f : α → ExceptT Fault (StateM LinkedBody) β} {g : α → Edit β} (each : ∀ v, Mirrored 1 (f v) (g v)) :
    ∀ l : List α, Mirrored l.length (l.mapM f) (l.mapM g)
  | [] => .pure []
  | v :: l => by
    rw [List.mapM_cons, List.mapM_cons, List.length_cons, Nat.add_comm]
    exact bind (each v) fun _ => bind (n := 0) (mapM each l) fun _ => .pure _

end Mirrored

namespace Draft

variable {a : Draft}

theorem mirrored_addLocal (sig : Sig) : Mirrored 0 (LinkedBody.gateway.addLocal sig) (Edit.gateway.addLocal sig) :=
  fun _ b mirrors num _ => ⟨mirrors.addLocal, num.apply (.addLocal sig), by
    simp only [Edit.gateway, Edit.addLocal]
    split <;> exact Nat.le_refl _⟩

theorem mirrored_push (i : Instr) : Mirrored 1 (LinkedBody.gateway.push i) (Edit.gateway.push i) := by
  intro a b mirrors num room
  have le : (Edit.push i b).2.nextIndex ≤ b.nextIndex + 1 := by
    unfold Edit.push
    split
    · exact Nat.le_refl _
    · exact Nat.le_succ _
  exact ⟨mirrors.push num (Nat.le_trans le room), num.apply (.push i), le⟩

theorem mirrored_setOperand (h : Handle) (o : Operand) :
    Mirrored 0 (LinkedBody.gateway.setOperand h o) (Edit.gateway.setOperand h o) :=
  fun _ b mirrors num _ => ⟨mirrors.setOperand, num.apply (.setOperand h o), by
    simp only [Edit.gateway, Edit.setOperand]
    split <;> exact Nat.le_refl _⟩

theorem mirrored_addRegion (r : Region) : Mirrored 0 (LinkedBody.gateway.addRegion r) (Edit.gateway.addRegion r) :=
  fun _ b mirrors num _ => ⟨mirrors.addRegion, num.apply (.addRegion r), by
    simp only [Edit.gateway, Edit.addRegion]
    split <;> exact Nat.le_refl _⟩

theorem mirrored_write : Mirrored a.pending.size (a.write LinkedBody.gateway) (a.write Edit.gateway) := by
  have close (ids : Array Handle) (p : Pending × Handle) :
      Mirrored 0 (a.close ids LinkedBody.gateway p) (a.close ids Edit.gateway p) := by
    refine .bind (m := 0) (n := 0) (.lift _) fun o => ?_
    cases o with
    | some o => exact mirrored_setOperand _ o
    | none => exact .pure ()
  have protect (ids : Array Handle) (r : LabelledRegion) :
      Mirrored 0 (a.protect ids LinkedBody.gateway r) (a.protect ids Edit.gateway r) :=
    .bind (m := 0) (n := 0) (.lift _) fun g => mirrored_addRegion g
  have declare (sig : Sig) : Mirrored 0 (declare LinkedBody.gateway sig) (declare Edit.gateway sig) :=
    .bind (mirrored_addLocal sig) fun _ => .pure ()
  have push := Mirrored.mapM (fun p : Pending => mirrored_push p.opened) a.pending.toList
  have whole := (Mirrored.forM declare a.locals.toList).bind fun _ => push.bind fun ids =>
    (Mirrored.forM (close ids.toArray) (a.pending.toList.zip ids)).bind fun _ =>
      Mirrored.forM (protect ids.toArray) a.regions.toList
  rw [Array.length_toList, Nat.zero_add] at whole
  exact whole

/-- A draft is finished alike as nodes and as a list, and the nodes read as the list. -/
theorem finishLinked_follows (few : a.pending.size ≤ 2 ^ 32) :
    (∃ nodes b, a.finishLinked = .ok nodes ∧ a.finish = .ok b ∧ nodes.read? = some b) ∨
      ∃ e, a.finishLinked = .error e ∧ a.finish = .error e := by
  obtain ⟨⟨same, mirrors⟩, num, -⟩ := mirrored_write (a := a) {} {} mirrors_empty Body.Reachable.empty.numbered
    (by simpa using few)
  rw [finishLinked, finish, finishWith, finishWith]
  cases came : a.write LinkedBody.gateway {} with
  | mk r nodes =>
    cases came' : a.write Edit.gateway {} with
    | mk r' b =>
      rw [came, came'] at same mirrors
      rw [came'] at num
      cases same
      cases r with
      | ok _ => exact .inl ⟨nodes, b, rfl, rfl, mirrors.read? num⟩
      | error e => exact .inr ⟨e, rfl, rfl⟩

end Draft

end CilForge
