import MacroAsm.Address
import MacroAsm.Fault
import MacroAsm.Text.Hex

/-!
# Expanded code

An expansion is a stretch of code with what is still open in it. A reference to a label or a table is a two-byte push
of zeros, a *placeholder*, until its offset is known. A macro that is being expanded is a *frame*; a stretch is first
made on its own, then placed in a frame.

* `Image`: bytes with their open placeholders; `Image.patch` writes an offset into a placeholder, and `Image.patch_run`
  says what it leaves when it is refused;
* `Expansion`: the bytes, an origin for each, the labels defined, the references still open;
* `Expansion.ofBytes`, `labelDef`, `labelRef`, `tableRef`: the smallest stretches; `e.shift k`: `e` placed `k` bytes
  behind the start of its frame; `a ++ b`: two stretches of one frame, the second behind the first;
* `Expansion.resolve`: writes the offsets of the labels that the stretch defines.
-/

namespace MacroAsm

/-- A label reference that is still open, and its place in the stretch. -/
structure LabelRef where
  label : Text
  offset : Nat
  origin : Origin
  deriving DecidableEq

/-- A table reference and its absolute place. -/
structure TableRef where
  table : Text
  offset : Address
  origin : Origin
  deriving DecidableEq

/-- Bytes, and the offsets of those placeholders in them that have not been written, ascending. -/
structure Image where
  bytes : Array UInt8
  placeholders : List Nat
  deriving DecidableEq

/-- The greatest offset that two bytes hold. -/
def maxOffset : Nat := 0xffff

namespace Image

/-- A byte put at an offset. -/
def put (i : Image) (offset : Nat) (byte : UInt8) : Image := { i with bytes := i.bytes.setIfInBounds offset byte }

/-- Writes a value into the placeholder at an offset; the image outlives a failure. -/
def patch (offset value : Nat) : ExceptT Cause (StateM Image) Unit := do
  let i ← get
  if !i.placeholders.contains offset || i.bytes[offset]? != some Opcode.push2 then throw (.notAPlaceholder offset)
  else if maxOffset < value then throw (.offsetTooLarge value)
  else
    modify (·.put (offset + 1) (UInt8.ofNat (value / 256)))
    modify (·.put (offset + 2) (UInt8.ofNat (value % 256)))
    modify fun i => { i with placeholders := i.placeholders.erase offset }

/-- The image with a value in the placeholder at an offset. -/
def written (i : Image) (offset value : Nat) : Image where
  bytes := (i.bytes.setIfInBounds (offset + 1) (UInt8.ofNat (value / 256))).setIfInBounds (offset + 2)
    (UInt8.ofNat (value % 256))
  placeholders := i.placeholders.erase offset

/-- Nothing is written before both checks are passed. -/
theorem patch_run (i : Image) (offset value : Nat) :
    (patch offset value).run i =
      if !i.placeholders.contains offset || i.bytes[offset]? != some Opcode.push2 then
        (.error (.notAPlaceholder offset), i)
      else if maxOffset < value then (.error (.offsetTooLarge value), i)
      else (.ok (), i.written offset value) := by
  show (ite _ (throw _) (ite _ (throw _) _) : ExceptT Cause (StateM Image) Unit).run i = _
  split
  · rfl
  · split <;> rfl

/-- Writes a value into a placeholder for the sake of a reference with the origin `o`. -/
def patchFor (i : Image) (o : Origin) (offset value : Nat) : Except Fault Image :=
  match (patch offset value).run i with
  | (.ok (), i') => .ok i'
  | (.error cause, _) => .error (.located cause o)

theorem patchFor_eq (i : Image) (o : Origin) (offset value : Nat) :
    i.patchFor o offset value =
      if !i.placeholders.contains offset || i.bytes[offset]? != some Opcode.push2 then
        .error (.located (.notAPlaceholder offset) o)
      else if maxOffset < value then .error (.located (.offsetTooLarge value) o)
      else .ok (i.written offset value) := by
  rw [patchFor, patch_run]
  cases !i.placeholders.contains offset || i.bytes[offset]? != some Opcode.push2 with
  | true => rfl
  | false => by_cases h : maxOffset < value <;> simp [h]

end Image

/-- A stretch of code with what is still open in it. -/
structure Expansion where
  bytes : Bytes := []
  /-- one origin for each byte -/
  origins : List Origin := []
  /-- the labels with their absolute offsets, each name once -/
  labels : List (Text × Address) := []
  /-- label references without a label -/
  unmatched : List LabelRef := []
  tableRefs : List TableRef := []
  /-- the offsets of placeholders whose bytes have not been written, ascending -/
  placeholders : List Nat := []
  deriving DecidableEq

namespace Expansion

/-- The number of bytes. -/
def size (e : Expansion) : Nat := e.bytes.length

/-- A stretch whose own offsets are counted from `k` bytes before it. -/
def shift (k : Nat) (e : Expansion) : Expansion :=
  { e with
    unmatched := e.unmatched.map fun r => { r with offset := k + r.offset }
    placeholders := e.placeholders.map (k + ·) }

/-- The labels of two lists; of two offsets for one name the second counts. -/
def joinLabels {α : Type} (a b : List (Text × α)) : List (Text × α) :=
  a.filter (fun d => !b.any fun d' => d'.1 == d.1) ++ b

/-- One stretch behind another; the offsets in both are counted from one place. -/
protected def append (a b : Expansion) : Expansion where
  bytes := a.bytes ++ b.bytes
  origins := a.origins ++ b.origins
  labels := joinLabels a.labels b.labels
  unmatched := a.unmatched ++ b.unmatched
  tableRefs := a.tableRefs ++ b.tableRefs
  placeholders := a.placeholders ++ b.placeholders

instance : Append Expansion := ⟨Expansion.append⟩

/-- Bytes that stand for themselves. -/
def ofBytes (bs : Bytes) (o : Origin) : Expansion where
  bytes := bs
  origins := List.replicate bs.length o

/-- A label at an absolute offset. -/
def labelDef (label : Text) (start : Address) (o : Origin) : Expansion :=
  { ofBytes [Opcode.jumpDest] o with labels := [(label, start)] }

/-- A push of two bytes that are not known yet. -/
def placeholder (o : Origin) : Expansion :=
  { ofBytes [Opcode.push2, 0, 0] o with placeholders := [0] }

/-- A reference to a label. -/
def labelRef (label : Text) (o : Origin) : Expansion :=
  { placeholder o with unmatched := [⟨label, 0, o⟩] }

/-- A reference to a table at an absolute offset. -/
def tableRef (table : Text) (start : Address) (o : Origin) : Expansion :=
  { placeholder o with tableRefs := [⟨table, start, o⟩] }

/-- The offset of a label. -/
def labelOffset? {α : Type} (labels : List (Text × α)) (label : Text) : Option α :=
  (labels.find? fun d => d.1 == label).map (·.2)

theorem labelOffset?_joinLabels {α : Type} (a b : List (Text × α)) (label : Text) :
    labelOffset? (joinLabels a b) label = (labelOffset? b label).or (labelOffset? a label) := by
  unfold labelOffset? joinLabels
  rw [List.find?_append, List.find?_filter]
  cases hb : b.find? fun d => d.1 == label with
  | none =>
    have keep : ∀ d : Text × α, (d.1 == label) = true → (b.any fun d' => d'.1 == d.1) = false := by
      intro d hd
      rw [eq_of_beq hd]
      simpa using hb
    have same : (fun d : Text × α => decide ((!b.any fun d' => d'.1 == d.1) = true ∧ (d.1 == label) = true))
        = fun d => d.1 == label := by
      funext d
      cases hd : d.1 == label with
      | false => simp
      | true => simp [keep d hd]
    rw [same]
    simp
  | some e =>
    have drop : a.find? (fun d => decide ((!b.any fun d' => d'.1 == d.1) = true ∧ (d.1 == label) = true)) = none := by
      refine List.find?_eq_none.2 fun d _ hd => ?_
      obtain ⟨h₁, h₂⟩ := of_decide_eq_true hd
      have hm := List.mem_of_find?_eq_some hb
      have he := List.find?_some hb
      rw [eq_of_beq h₂] at h₁
      have : (b.any fun d' => d'.1 == label) = true := List.any_eq_true.2 ⟨e, hm, he⟩
      simp [this] at h₁
    rw [drop]
    rfl

/-- The bytes and their open placeholders. -/
def image (e : Expansion) : Image := ⟨e.bytes.toArray, e.placeholders⟩

/-- Other bytes and placeholders. -/
def withImage (e : Expansion) (i : Image) : Expansion :=
  { e with bytes := i.bytes.toList, placeholders := i.placeholders }

/-- Goes through references in order: one with a label is written, any other stays open. -/
def resolveRefs (labels : List (Text × Address)) : List LabelRef → Image → Except Fault (List LabelRef × Image)
  | [], i => .ok ([], i)
  | r :: rs, i => match labelOffset? labels r.label with
    | some target => do resolveRefs labels rs (← i.patchFor r.origin r.offset target.toNat)
    | none => do
      let (unmatched, i') ← resolveRefs labels rs i
      return (r :: unmatched, i')

/-- Writes the offsets of the labels that the stretch defines. -/
def resolve (e : Expansion) : Except Fault Expansion := do
  let (unmatched, i) ← resolveRefs e.labels e.unmatched e.image
  return { e.withImage i with unmatched := unmatched }

end Expansion
end MacroAsm
