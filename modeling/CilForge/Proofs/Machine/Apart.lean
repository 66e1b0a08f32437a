import CilForge.Proofs.Machine.Depth
import CilForge.Proofs.Machine.Straight

/-!
# Modules that differ in one type

A method that is called is one that the instruction names. So a run that stays within code that names no
method of a type is the same in all modules that differ in the methods of that type only.
-/

namespace CilForge

/-! ## What an instruction calls -/

namespace Frame

theorem gives_callee (f : Frame) (heap : Heap) (h : Handle) (i : Instr) :
    Gives (fun r => ∀ ref args, r.2.callee? = some (ref, args) → i.method? = some ref) (f.act heap h i) := by
  obtain ⟨o, operand⟩ := i
  have named {k : MethodRef → Except MachineFault (Frame × Action)}
      (calls : ∀ m, Gives (fun r => ∀ ref args, r.2.callee? = some (ref, args) → ref = m) (k m)) :
      Gives (fun r => ∀ ref args, r.2.callee? = some (ref, args) → Instr.method? ⟨o, operand⟩ = some ref)
        (Instr.needMethod ⟨o, operand⟩ >>= k) := by
    refine (Instr.gives_needMethod ⟨o, operand⟩).bind fun m method r done ref args callee => ?_
    rw [calls m r done ref args callee]
    exact method
  have quiet {g : Frame} {a : Action} (none : a.callee? = none) :
      Gives (fun r => ∀ ref args, r.2.callee? = some (ref, args) → Instr.method? ⟨o, operand⟩ = some ref)
        (.ok (g, a)) :=
    .ok fun ref args callee => by
      rw [none] at callee
      cases callee
  cases o
  case call | callvirt =>
    refine named fun m => .skip fun _ => .skip fun _ => .ok ?_
    intro ref args callee
    cases callee
    rfl
  case newobj =>
    refine named fun m => .skip fun _ => .ok ?_
    intro ref args callee
    cases callee
    rfl
  -- no other instruction calls a method
  case nop | ldnull | ret => exact quiet rfl
  case ldarga | ldloca | dup | pop | throw | br | ldtoken | constrained => exact .skip fun _ => quiet rfl
  case ldarg | ldloc | ldobj | neg | not | convI1 | convI2 | convI4 | convI8 | convU1 | convU2 | convU4 | convU8
      | ldlen | box =>
    exact .skip fun _ => .skip fun _ => quiet rfl
  case starg | stloc | stobj | initobj | add | sub | mul | div | rem | and | or | xor | shl | shr | shrUn | ceq
      | cgt | cgtUn | clt | cltUn =>
    exact .skip fun _ => .skip fun _ => .skip fun _ => quiet rfl
  case ldcI4 | ldcI8 | ldstr => cases operand <;> first | exact quiet rfl | exact .error
  case brfalse | brtrue => exact .skip fun _ => .ite (.skip fun _ => quiet rfl) (quiet rfl)
  case beq | bge | bgt | ble | blt | bneUn | bgeUn | bgtUn | bleUn | bltUn =>
    exact .skip fun _ => .skip fun _ => .skip fun _ => .ite (.skip fun _ => quiet rfl) (quiet rfl)
  case switch =>
    refine .skip fun _ => .skip fun index => ?_
    split
    · exact quiet rfl
    · exact quiet rfl
  case leave =>
    refine .skip fun target => .skip fun handlers => ?_
    cases handlers with
    | nil => exact quiet rfl
    | cons _ _ => exact quiet rfl
  case endfinally =>
    simp only [act, reduceCtorEq, if_false]
    split
    · exact .error
    · exact quiet rfl
    · exact quiet rfl
  case unboxAny =>
    refine .skip fun _ => .skip fun popped => ?_
    obtain ⟨v, _⟩ := popped
    cases v <;> first | exact quiet rfl | exact .ite (quiet rfl) .error
  case newarr => exact .skip fun _ => .skip fun _ => .skip fun _ => .ite .error (quiet rfl)
  case ldelem =>
    refine .skip fun _ => .skip fun index => .skip fun _ => .skip fun a => ?_
    dsimp only
    split
    · exact quiet rfl
    · exact .error
  case stelem =>
    exact .skip fun _ => .skip fun _ => .skip fun _ => .skip fun _ => .skip fun _ => .ite (quiet rfl) .error
  all_goals exact .error

structure Along (b : Body) (f : Frame) : Prop where
  body : f.body = b
  suffix : f.ahead <:+ b.code

variable {b : Body} {f f' g : Frame}

theorem Along.start (b : Body) (args : List Value) : Along b (.start b args) := ⟨rfl, List.suffix_refl _⟩

theorem Along.act {heap : Heap} {h : Handle} {i : Instr} {a : Action} (along : Along b f)
    (act : f.act heap h i = .ok (g, a)) : Along b g := by
  by_cases leave : i.opcode = .leave
  · obtain ⟨target, handlers, goes, left⟩ := act_leave_cases leave act
    cases (Finally.act_leave leave goes fun _ => left).symm.trans act
    exact ⟨along.body, along.suffix⟩
  by_cases endfinally : i.opcode = .endfinally
  · cases waiting : f.leaves with
    | nil => cases (Finally.act_stray endfinally waiting).symm.trans act
    | cons d outer =>
      cases (Finally.act_endfinally endfinally waiting).symm.trans act
      exact ⟨along.body, along.suffix⟩
  by_cases ret : i.opcode = .ret
  · cases (Finally.act_ret ret).symm.trans act
    exact ⟨along.body, along.suffix⟩
  · have plain : i.opcode.isPlain = true := by simp [Opcode.isPlain, leave, endfinally, ret]
    obtain ⟨body, ahead, -⟩ := place_of_act plain act
    exact ⟨body.trans along.body, ahead ▸ along.suffix⟩

theorem Along.perform {mem mem' : Memory} {a : Action} (along : Along b f)
    (done : f.perform mem a = some (f', mem')) : Along b f' := by
  cases a with
  | jump goal =>
    obtain ⟨-, rfl, -⟩ := perform_jump.1 done
    refine ⟨along.body, ?_⟩
    rw [along.body]
    exact List.dropWhile_suffix _
  | next | alloc _ _ | store _ _ _ =>
    cases done
    exact ⟨along.body, along.suffix⟩
  | ret _ | throw _ | call _ _ | new _ _ => cases done

theorem Along.resume {a : Action} {ref : MethodRef} {args : List Value} {v : Option Value} (along : Along b f)
    (callee : a.callee? = some (ref, args)) (resumed : a.resume f ref v = .ok f') : Along b f' := by
  rcases Action.resume_cases callee resumed with ⟨rfl, -⟩ | ⟨x, rfl, -⟩
  · exact along
  · exact ⟨along.body, along.suffix⟩

end Frame

namespace Machine

variable {m m' : Machine} {R R' : Carries} {P P' : Frame → Memory → Prop} {b : Body} {f f' g : Frame}
  {mem mem' : Memory} {k n : Nat} {o : Outcome} {a : Action}

theorem Acts.along (along : f.Along b) (acts : Acts f mem g a) : g.Along b ∧
    ∀ ref args, a.callee? = some (ref, args) → ∃ p ∈ b.code, p.2.method? = some ref := by
  obtain ⟨h, i, behind, ahead, act⟩ := acts
  have suffix := along.suffix
  rw [ahead] at suffix
  have next : ({ f with ahead := behind } : Frame).Along b := ⟨along.body, (List.suffix_cons _ _).trans suffix⟩
  refine ⟨next.act act, fun ref args callee => ?_⟩
  exact ⟨(h, i), suffix.subset List.mem_cons_self, Frame.gives_callee _ _ _ _ _ act ref args callee⟩

theorem Step.along (along : f.Along b) (step : Step m R f mem k f' mem') : f'.Along b := by
  cases step with
  | move acts done => exact (acts.along along).1.perform done
  | call acts callee _ _ resumed => exact (acts.along along).1.resume callee resumed
  | ask acts callee _ _ resumed => exact (acts.along along).1.resume callee resumed

end Machine

/-! ## The same enums -/

section
variable {s s' : Scope} (same : s'.enumInfo? = s.enumInfo?)
include same

theorem Scope.enumInfo_congr : s'.enumInfo = s.enumInfo := by
  funext sig
  rw [Scope.enumInfo, Scope.enumInfo, same]

theorem Intrinsic.invoke?_congr : Intrinsic.invoke? s' = Intrinsic.invoke? s := by
  have infos := Scope.enumInfo_congr same
  have bits : Intrinsic.boxedBits s' = Intrinsic.boxedBits s := by
    funext heap v
    unfold boxedBits
    rw [infos]
  have values : Intrinsic.getValues s' = Intrinsic.getValues s := by
    funext heap args
    unfold getValues
    rw [infos]
  have defined : Intrinsic.isDefined s' = Intrinsic.isDefined s := by
    funext heap args
    unfold isDefined
    rw [infos, bits]
  have underlying : Intrinsic.getUnderlyingType s' = Intrinsic.getUnderlyingType s := by
    funext heap args
    unfold getUnderlyingType
    rw [infos]
  have flag : Intrinsic.hasFlag s' = Intrinsic.hasFlag s := by
    funext heap args
    unfold hasFlag
    rw [bits]
  have text : Intrinsic.toText s' = Intrinsic.toText s := by
    funext heap args
    unfold toText
    rw [same]
  have equal : Intrinsic.equals s' = Intrinsic.equals s := by
    funext heap args
    unfold equals
    rw [bits]
  funext heap ref args
  unfold invoke?
  rw [values, defined, underlying, flag, text, equal]

theorem Frame.Faithful.congr {f : Frame} {heap : Heap} (faithful : f.Faithful s heap) : f.Faithful s' heap := by
  have kinds : s'.kind? = s.kind? := by
    funext sig
    rw [Scope.kind?, Scope.kind?, same]
  refine ⟨?_, ?_⟩
  · rw [kinds]
    exact faithful.boxes
  · rw [same]
    exact faithful.reads

end

/-! ## Runs in both modules -/

def Body.Avoids (name : TypeName) (b : Body) : Prop :=
  ∀ p ∈ b.code, ∀ ref, p.2.method? = some ref → ref.declaring ≠ name

instance (name : TypeName) (b : Body) : Decidable (b.Avoids name) :=
  inferInstanceAs (Decidable (∀ p ∈ b.code, ∀ ref ∈ p.2.method?, ref.declaring ≠ name))

namespace Machine

/-- Two machines with the same host, whose modules differ in the methods of a type only, and that type is
not used in the first one. -/
structure Apart (name : TypeName) (m m' : Machine) : Prop where
  host : m'.host = m.host
  enums : m'.scope.enumInfo? = m.scope.enumInfo?
  bodies : ∀ ref, ref.declaring ≠ name → m'.body? ref = m.body? ref
  avoids : ∀ ref body, m.body? ref = .ok (some body) → body.Avoids name

variable {m m' : Machine} {name : TypeName} {R R' : Carries} {b : Body} {f f' : Frame} {mem mem' : Memory}
  {k n : Nat} {o : Outcome}

theorem Apart.outside? (apart : Apart name m m') : m'.outside? = m.outside? := by
  funext ref args mem
  unfold Machine.outside?
  rw [Intrinsic.invoke?_congr apart.enums, apart.host]

section
variable (apart : Apart name m m') (sub : ∀ {body args mem n o mem'}, body.Avoids name →
  R body args mem n o mem' → R' body args mem n o mem') (avoids : b.Avoids name)
include apart sub avoids

theorem Apart.step (along : f.Along b) (step : Step m R f mem k f' mem') : Step m' R' f mem k f' mem' := by
  have same {a : Action} {g : Frame} {ref : MethodRef} {args : List Value} (acts : Acts f mem g a)
      (callee : a.callee? = some (ref, args)) : m'.body? ref = m.body? ref := by
    obtain ⟨p, line, method⟩ := (acts.along along).2 ref args callee
    exact apart.bodies ref (avoids p line ref method)
  cases step with
  | move acts done => exact .move acts done
  | call acts callee body run resume =>
    exact .call acts callee ((same acts callee).trans body) (sub (apart.avoids _ _ body) run) resume
  | ask acts callee body answer resume =>
    exact .ask acts callee ((same acts callee).trans body) (apart.outside? ▸ answer) resume

theorem Apart.ends (along : f.Along b) (ends : Ends m R f mem n o mem') : Ends m' R' f mem n o mem' := by
  induction ends with
  | stop acts out => exact .stop acts out
  | step step _ ih => exact .step (apart.step sub avoids along step) (ih (step.along along))

theorem Apart.upholds (along : f.Along b) (upholds : Upholds m R m.faithful f mem n o mem') :
    Upholds m' R' m'.faithful f mem n o mem' := by
  induction upholds with
  | stop holds acts out => exact .stop (holds.congr apart.enums) acts out
  | step holds step _ ih =>
    exact .step (holds.congr apart.enums) (apart.step sub avoids along step) (ih (step.along along))

end

theorem Apart.within (apart : Apart name m m') : ∀ (depth : Nat) {body : Body} {args mem n o mem'},
    body.Avoids name → m.Within depth body args mem n o mem' → m'.Within depth body args mem n o mem'
  | 0, _, _, _, _, _, _, _, run => run.elim
  | depth + 1, body, args, _, _, _, _, avoids, run =>
    apart.ends (fun avoids run => apart.within depth avoids run) avoids (.start body args) run

end Machine

end CilForge
