import CilForge.Generate
import CilForge.Proofs.Draft.Script

/-!
# The scripts of lookups

Each piece of a generated lookup, read as a script. `writes_emit` says that the assembly of a lookup
writes its script.
-/

namespace CilForge.Lookup

open Asm

variable {k : IntKind} (mode : Lookup)

def plain (i : Instr) : Line := .code (.plain i)

def equalityScript (index : Nat) (value : EnumValue k) : Script :=
  plain (.ldarg 0) ::
    if value = 0 then [.code (.branch .brfalse (mode.hitLabel index))]
    else [plain value.load, .code (.branch .beq (mode.hitLabel index))]

def indexScript (base : EnumValue k) : Script :=
  plain (.ldarg 0) :: if base = 0 then [] else [plain base.load, plain ⟨.sub, .none⟩]

def tableEnd (base : EnumValue k) : String := s!"table_end_{base.toNat}"

def tableScript (base : EnumValue k) (labels : List String) : Script :=
  indexScript base ++
    if k.isWide then
      [plain (.ldcI8 (BitVec.ofNat 64 labels.length)), .code (.branch .bgeUn (tableEnd base))] ++
        (indexScript base ++
          [plain ⟨.convU4, .none⟩, .code (.switch labels), .label (tableEnd base)])
    else [.code (.switch labels)]

def leftLabel (lo mid : Nat) : String := s!"left_{lo}_{mid}"

def runScript (run : Run) (first : EnumValue k) : Script :=
  if run.len = 1 then equalityScript mode run.start first
  else tableScript first ((List.range run.len).map fun i => mode.hitLabel (run.start + i))

def midRun (p : Roster k) (mid : Nat) : Run := p.runs[mid]?.getD default

def midFirst (p : Roster k) (mid : Nat) : EnumValue k :=
  (p.entries[(midRun p mid).start]?.map (·.value)).getD 0

def searchScript (p : Roster k) (lo hi : Nat) : Script :=
  if lo < hi then
    let mid := lo + (hi - lo) / 2
    runScript mode (midRun p mid) (midFirst p mid) ++
      if lo < mid then
        [plain (.ldarg 0), plain (midFirst p mid).load,
          .code (.branch (if k.isSigned then .blt else .bltUn) (leftLabel lo mid))] ++
          (searchScript p (mid + 1) hi ++ .label (leftLabel lo mid) :: searchScript p lo mid)
      else searchScript p (mid + 1) hi
  else [.code (.branch .br "fallback")]
termination_by hi - lo

def fallbackScript (p : Roster k) (enum : Sig) : Script :=
  match mode with
  | membership => [plain (.ldcI4 0), plain ⟨.ret, .none⟩]
  | names =>
    plain (.ldarg 0) ::
      ((if p.isFlags && !p.exhaustive then
        [plain (.typed .box enum), plain (.call .callvirt Platform.objectToString)]
      else [plain (.call .call (Platform.convertToString k))]) ++ [plain ⟨.ret, .none⟩])

def hitsScript (p : Roster k) : Script :=
  match mode with
  | names => p.entries.toList.zipIdx.flatMap fun (e, index) =>
      [.label (hitLabel names index), plain (.ldstr e.name), plain ⟨.ret, .none⟩]
  | membership =>
    if p.size = 0 then [] else [.label "hit", plain (.ldcI4 1), plain ⟨.ret, .none⟩]

def gapsScript (base : EnumValue k) (values : List (EnumValue k)) : Script :=
  values.flatMap fun value =>
    [.label (gapLabel base value), plain (.ldstr value.text), plain ⟨.ret, .none⟩]

def baseOf (p : Roster k) : EnumValue k := (p.entries[0]?.map (·.value)).getD 0

def placesOf (p : Roster k) (ratio : Nat) : List (Slot k) :=
  if p.shape ratio = .denseTable then slots p.entries.toList else []

def decisionScript (p : Roster k) (ratio : Nat) : Script :=
  match p.shape ratio with
  | .empty => []
  | .single | .pair => (testOrder p).flatMap fun (index, value) => equalityScript mode index value
  | .contiguous => tableScript (baseOf p) ((List.range p.size).map mode.hitLabel)
  | .denseTable =>
    tableScript (baseOf p) ((placesOf p ratio).map (mode.slotLabel p (baseOf p)))
  | .binarySearch => searchScript mode p 0 p.runs.length

def script (p : Roster k) (enum : Sig) (ratio : Nat) : Script :=
  decisionScript mode p ratio ++ .label "fallback" :: (fallbackScript mode p enum ++
    (hitsScript mode p ++ gapsScript (baseOf p) (mode.gapValues p (placesOf p ratio))))

/-! ## Assemblies write scripts -/

theorem load_plain (v : EnumValue k) : v.load.opcode.isBranch = false := by
  unfold EnumValue.load; split <;> rfl

theorem load_wellFormed (v : EnumValue k) : v.load.wellFormed = true := by
  unfold EnumValue.load; split <;> rfl

theorem writes_load (v : EnumValue k) : Writes (Asm.emit v.load) [plain v.load] :=
  .emit (load_plain v) (load_wellFormed v)

theorem writes_emitEqualityTest (index : Nat) (value : EnumValue k) :
    Writes (mode.emitEqualityTest index value) (equalityScript mode index value) := by
  unfold emitEqualityTest equalityScript
  have arg : Writes (Asm.emit (.ldarg 0)) [plain (.ldarg 0)] := .emit rfl rfl
  split
  · exact arg.bind (.branch _ rfl)
  · exact arg.bind ((writes_load value).bind (.branch _ rfl))

theorem writes_emitIndex (base : EnumValue k) : Writes (emitIndex base) (indexScript base) := by
  unfold emitIndex indexScript
  have arg : Writes (Asm.emit (.ldarg 0)) [plain (.ldarg 0)] := .emit rfl rfl
  by_cases h : base = 0
  · simp only [h, ne_eq, not_true_eq_false, if_false, if_true]
    exact arg.bind .pure
  · simp only [h, ne_eq, not_false_eq_true, if_true, if_false]
    exact arg.bind ((writes_load base).bind (.emit rfl rfl))

theorem writes_emitTable (base : EnumValue k) (labels : List String) :
    Writes (emitTable base labels) (tableScript base labels) := by
  unfold emitTable tableScript
  have index := writes_emitIndex base
  split
  · refine index.bind ?_
    refine .bind (s := [_]) (.emit rfl rfl) (.bind (s := [_]) (.branch _ rfl) (index.bind ?_))
    exact .bind (s := [_]) (.emit rfl rfl) (.bind (s := [_]) (.switch _) (.label _))
  · exact index.bind (.switch _)

theorem writes_emitSearch (p : Roster k) (lo hi : Nat) :
    Writes (mode.emitSearch p lo hi) (searchScript mode p lo hi) := by
  fun_induction searchScript mode p lo hi with
  | case1 lo hi lt mid ih₁ ih₂ ih₃ =>
    rw [emitSearch, if_pos lt]
    have test {rest : Asm Unit} {t : Script} (h : Writes rest t) : Writes
        (if (midRun p mid).len = 1 then do
          let _ ← mode.emitEqualityTest (midRun p mid).start (midFirst p mid)
          rest
        else do
          let _ ← emitTable (midFirst p mid)
            ((List.range (midRun p mid).len).map fun i => mode.hitLabel ((midRun p mid).start + i))
          rest) (runScript mode (midRun p mid) (midFirst p mid) ++ t) := by
      unfold runScript
      split
      · exact (writes_emitEqualityTest mode _ _).bind h
      · exact (writes_emitTable _ _).bind h
    refine test ?_
    dsimp only
    by_cases left : lo < mid
    · simp only [mid, left, if_true] at ih₁ ih₂ ⊢
      refine .bind (s := [_]) (.emit rfl rfl) (.bind (writes_load _) (.bind (s := [_]) (.branch _ ?_) ?_))
      · split <;> rfl
      · exact (ih₁ trivial).bind (.bind (s := [_]) (.label _) (ih₂ trivial))
    · simp only [mid, left, if_false] at ih₃ ⊢
      have := (ih₃ (by simp)).bind .pure
      rwa [List.append_nil] at this
  | case2 lo hi ge =>
    rw [emitSearch, if_neg ge]
    exact .branch _ rfl

theorem writes_emitFallback (p : Roster k) (enum : Sig) :
    Writes (mode.emitFallback p enum) (fallbackScript mode p enum) := by
  cases mode with
  | membership => exact .bind (s := [_]) (.emit rfl rfl) (.emit rfl rfl)
  | names =>
    have arg : Writes (Asm.emit (.ldarg 0)) [plain (.ldarg 0)] := .emit rfl rfl
    have ret : Writes (Asm.op .ret) [plain ⟨.ret, .none⟩] := .emit rfl rfl
    unfold emitFallback fallbackScript
    simp only
    split
    · exact arg.bind (.bind (s := [_]) (.emit rfl rfl) (.bind (s := [_]) (.emit rfl rfl) ret))
    · exact arg.bind (.bind (s := [_]) (.emit rfl rfl) ret)

theorem writes_emitHits (p : Roster k) : Writes (mode.emitHits p) (hitsScript mode p) := by
  cases mode with
  | names =>
    exact Writes.forM fun e _ =>
      .bind (s := [_]) (.label _) (.bind (s := [_]) (.emit rfl rfl) (.emit rfl rfl))
  | membership =>
    unfold emitHits hitsScript
    simp only
    split
    · exact .pure
    · exact .bind (s := [_]) (.label _) (.bind (s := [_]) (.emit rfl rfl) (.emit rfl rfl))

theorem writes_emitGaps (base : EnumValue k) (values : List (EnumValue k)) :
    Writes (emitGaps base values) (gapsScript base values) :=
  Writes.forM fun _ _ =>
    .bind (s := [_]) (.label _) (.bind (s := [_]) (.emit rfl rfl) (.emit rfl rfl))

theorem writes_emit (p : Roster k) (enum : Sig) (ratio : Nat) :
    Writes (mode.emit p enum ratio) (script mode p enum ratio) := by
  have tail : Writes (do
      Asm.label "fallback"
      mode.emitFallback p enum
      mode.emitHits p
      emitGaps (baseOf p) (mode.gapValues p (placesOf p ratio))) _ :=
    .bind (s := [_]) (.label "fallback") ((writes_emitFallback mode p enum).bind
      ((writes_emitHits mode p).bind (writes_emitGaps _ _)))
  unfold Lookup.emit script decisionScript
  dsimp only
  cases hs : p.shape ratio with
  | empty =>
    simp only [hs, placesOf] at tail ⊢
    exact tail
  | single | pair =>
    simp only [hs, placesOf] at tail ⊢
    exact (Writes.forM fun e _ => writes_emitEqualityTest mode e.1 e.2).bind tail
  | contiguous | denseTable =>
    simp only [hs, placesOf] at tail ⊢
    exact (writes_emitTable _ _).bind tail
  | binarySearch =>
    simp only [hs, placesOf] at tail ⊢
    exact (writes_emitSearch mode p 0 _).bind tail

end CilForge.Lookup
