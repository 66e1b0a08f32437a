import CilForge.CallSite.StraightLine
import CilForge.Session

/-!
# Recognising call sites

The instruction sequences that do an enum operation by reflection, each recognised at its first
instruction, and what is to be put in their place.
-/

namespace CilForge.CallSite

inductive Pattern where
  | getValues | isDefined | getUnderlyingType | hasFlag | toString | constrainedToString | equals
deriving DecidableEq

def Pattern.text : Pattern → String
  | getValues => "GetValues" | isDefined => "IsDefined"
  | getUnderlyingType => "GetUnderlyingType" | hasFlag => "HasFlag" | toString => "ToString"
  | constrainedToString => "ConstrainedToString" | equals => "Equals"

/-- What is to be done at a site. -/
inductive Change where
  /-- The whole sequence becomes one constant. -/
  | fold (first last : Handle) (result : Instr)
  /-- The call becomes one of a generated method, and the preparations for it go. -/
  | redirect (scaffolding : List Handle) (call : Handle) (op : Operation)
  /-- The token of the enum becomes that of its integer type. -/
  | underlying (token call : Handle) (primitive : Sig)
  /-- The flag test is done on the integers. -/
  | hasFlag (firstBox secondBox call : Handle)
  /-- The receiver is read through its address and passed to a generated method. -/
  | constrained (marker call : Handle)

structure Site where
  pattern : Pattern
  info : EnumInfo
  change : Change

def Site.operation? (s : Site) : Option Operation :=
  match s.change with
  | .redirect _ _ op => some op
  | .constrained _ _ => some .toString
  | _ => none

def Site.isFold (s : Site) : Bool :=
  match s.change with
  | .fold _ _ _ => true
  | _ => false

/-- A search for a site: it may find none, or find that the enum is of no use. -/
abbrev Search := OptionT (Except Fault)

namespace Search

def ofOption {α : Type} (o : Option α) : Search α := OptionT.mk (pure o)

def ofExcept {α : Type} (e : Except Fault α) : Search α := OptionT.lift e

def refuse {α : Type} (cause : Unsupported) : Search α := ofExcept (.error (.unsupported cause))

end Search

/-- The operand of an instruction on a value type, or on a generic instance, which is refused
later. -/
def valueType? (i : Instr) : Option Sig :=
  match i.type? with
  | some (.valueType name) => some (.valueType name)
  | some (.generic base args) => some (.generic base args)
  | _ => none

def isCall (i : Instr) : Bool := i.opcode = .call || i.opcode = .callvirt

def called? (i : Instr) : Option MethodRef := if isCall i then i.method? else none

def calls (i : Instr) (opcode : Opcode) (test : MethodRef → Bool) : Bool :=
  i.opcode = opcode && i.method?.any test

/-- The patterns with two boxed operands, by their call. -/
def pairPattern? (i : Instr) : Option Pattern :=
  match called? i with
  | none => none
  | some m =>
    if Platform.isEnumHasFlag m then some .hasFlag
    else if i.opcode = .callvirt && Platform.isVirtualEquals m then some .equals
    else none

def loadBool (v : Bool) : Instr := .ldcI4 (if v then 1 else 0)

section
variable (ctx : Context) (module : ModuleDef) (b : Body)

def describe (enum : Sig) : Search EnumInfo :=
  Search.ofExcept (EnumInfo.ofSig ctx.library module enum)

/-- `IsDefined` on a type token: `third` is the first instruction of the argument. -/
def matchIsDefined (anchor resolve third : Handle) (enum : Sig) : Search Site := do
  let call ← Search.ofOption <| walk b third 1 1 fun _ i depth =>
    depth = 2 && calls i .call Platform.isEnumIsDefined
  let last ← Search.ofOption (b.prev? call)
  let argument ← Search.ofOption (b.get? last)
  let d ← describe ctx module enum
  let fold (defined : Bool) : Site := ⟨.isDefined, d, .fold anchor call (loadBool defined)⟩
  match argument.opcode, argument.string? with
  | .ldstr, some name =>
    if last ≠ third then Search.refuse .computedString
    return fold (d.declared.any (·.name = name))
  | opcode, _ =>
    if opcode ≠ .box then Search.refuse (.argumentSource opcode)
    let boxed := argument.type?
    if boxed ≠ some enum && boxed ≠ some d.kind.sig then
      Search.refuse (.argumentType enum d.kind.sig)
    let constant := if b.prev? last = some third then (b.get? third).bind constant? else none
    match constant with
    | some w => return fold (d.nameOf? (.ofWord d.kind w)).isSome
    | none => return ⟨.isDefined, d, .redirect [anchor, resolve, last] call .isDefined⟩

def matchToken (anchor : Handle) : Search Site := do
  let token ← Search.ofOption (b.get? anchor)
  let enum ← Search.ofOption (valueType? token)
  let (resolve, i) ← Search.ofOption (follow? b anchor)
  if !calls i .call Platform.isGetTypeFromHandle then failure
  let (third, i) ← Search.ofOption (follow? b resolve)
  if (called? i).any Platform.isEnumGetValues then
    let d ← describe ctx module enum
    return ⟨.getValues, d, .redirect [anchor, resolve] third .getValues⟩
  else if (called? i).any Platform.isEnumGetUnderlyingType then
    let d ← describe ctx module enum
    return ⟨.getUnderlyingType, d, .underlying anchor third d.kind.sig⟩
  else matchIsDefined ctx module b anchor resolve third enum

def matchLiteral (anchor : Handle) : Search Site := do
  let first ← Search.ofOption ((b.get? anchor).bind constant?)
  let (boxed, box) ← Search.ofOption (follow? b anchor)
  if box.opcode ≠ .box then failure
  let enum ← Search.ofOption (valueType? box)
  let (next, i) ← Search.ofOption (follow? b boxed)
  if calls i .callvirt Platform.isVirtualToString then
    let d ← describe ctx module enum
    return ⟨.toString, d, .fold anchor next (.ldstr (d.format (.ofWord d.kind first)))⟩
  else
    let second ← Search.ofOption (constant? i)
    let (boxed, box) ← Search.ofOption (follow? b next)
    if !box.isTyped .box enum then failure
    let (call, i) ← Search.ofOption (follow? b boxed)
    let pattern ← Search.ofOption (pairPattern? i)
    let d ← describe ctx module enum
    let x : EnumValue d.kind := .ofWord d.kind first
    let y : EnumValue d.kind := .ofWord d.kind second
    let result := if pattern = .hasFlag then decide (x &&& y = y) else decide (x = y)
    return ⟨pattern, d, .fold anchor call (loadBool result)⟩

/-- The pattern of a second box of the given type and the call behind it. -/
def secondBox? (enum : Sig) (h : Handle) (i : Instr) : Option Pattern :=
  if i.isTyped .box enum then (follow? b h).bind fun (_, call) => pairPattern? call else none

def matchBox (anchor : Handle) : Search Site := do
  let box ← Search.ofOption (b.get? anchor)
  let enum ← Search.ofOption (valueType? box)
  let (next, i) ← Search.ofOption (follow? b anchor)
  if calls i .callvirt Platform.isVirtualToString then
    let d ← describe ctx module enum
    return ⟨.toString, d, .redirect [anchor] next .toString⟩
  else
    let second ← Search.ofOption <| walk b next 1 1 fun h i depth =>
      depth = 2 && (secondBox? b enum h i).isSome
    let box ← Search.ofOption (b.get? second)
    let pattern ← Search.ofOption (secondBox? b enum second box)
    let call ← Search.ofOption (b.next? second)
    let d ← describe ctx module enum
    if pattern = .hasFlag then return ⟨pattern, d, .hasFlag anchor second call⟩
    else return ⟨pattern, d, .redirect [anchor, second] call .equals⟩

def matchConstrained (anchor : Handle) : Search Site := do
  let enum ← Search.ofOption ((b.get? anchor).bind valueType?)
  let (call, i) ← Search.ofOption (follow? b anchor)
  if !calls i .callvirt Platform.isVirtualToString then failure
  let d ← describe ctx module enum
  return ⟨.constrainedToString, d, .constrained anchor call⟩

/-- Whether the constant before a box belongs to a site of its own. -/
def literalBefore (anchor : Handle) : Bool :=
  match b.prev? anchor with
  | none => false
  | some before =>
    match (matchLiteral ctx module b before).run with
    | .ok (some _) => true
    | _ => false

/-- The site that starts at an instruction. -/
def matchAt (anchor : Handle) : Except Fault (Option Site) :=
  match b.get? anchor with
  | none => .ok none
  | some i =>
    match i.opcode with
    | .ldtoken => (matchToken ctx module b anchor).run
    | .ldcI4 | .ldcI8 => (matchLiteral ctx module b anchor).run
    | .box =>
      if literalBefore ctx module b anchor then .ok none else (matchBox ctx module b anchor).run
    | .constrained => (matchConstrained ctx module b anchor).run
    | _ => .ok none

end

end CilForge.CallSite
