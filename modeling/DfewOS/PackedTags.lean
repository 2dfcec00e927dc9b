import DfewOS.Ecc

/-!
# Packed tags

`yaffs_packedtags2.c`: the tags of a chunk as they stand in the spare area, with
the extra information of an object header in the high bits, and their code.
-/

namespace DfewOS.PackedTags
open Ecc (Data EccOther yaffsEccCalcOther yaffsEccCorrectOther)

/-- `enum yaffs_ecc_result` -/
inductive EccResult
  | unknown
  | noError
  | fixed
  | unfixed
  deriving DecidableEq

/-- `struct yaffs_ext_tags` -/
structure ExtTags where
  validity0 : BitVec 32
  chunkUsed : BitVec 32
  objId : BitVec 32
  chunkId : BitVec 32
  nBytes : BitVec 32
  eccResult : EccResult
  blockBad : BitVec 32
  isDeleted : BitVec 32
  serialNumber : BitVec 32
  seqNumber : BitVec 32
  extraAvailable : BitVec 32
  extraParentId : BitVec 32
  extraIsShrink : BitVec 32
  extraShadows : BitVec 32
  extraObjType : BitVec 32
  extraLength : BitVec 32
  extraEquivId : BitVec 32
  validity1 : BitVec 32
  deriving DecidableEq

/-- `struct yaffs_packed_tags2_tags_only` -/
structure TagsOnly where
  seqNumber : BitVec 32
  objId : BitVec 32
  chunkId : BitVec 32
  nBytes : BitVec 32
  deriving DecidableEq

/-- `struct yaffs_packed_tags2` -/
structure Packed where
  t : TagsOnly
  ecc : EccOther
  deriving DecidableEq

def extraHeaderInfoFlag : BitVec 32 := 0x80000000
def extraShrinkFlag : BitVec 32 := 0x40000000
def extraShadowsFlag : BitVec 32 := 0x20000000
def allExtraFlags : BitVec 32 := 0xf0000000
def extraObjectTypeShift : ℕ := 28
def extraObjectTypeMask : BitVec 32 := 0x0f <<< extraObjectTypeShift

/-- `YAFFS_OBJECT_TYPE_FILE` and `YAFFS_OBJECT_TYPE_HARDLINK` -/
def objectTypeFile : BitVec 32 := 1
def objectTypeHardlink : BitVec 32 := 4

def packTagsOnly (t : ExtTags) : TagsOnly :=
  if t.chunkId = 0 ∧ t.extraAvailable ≠ 0 then
    { seqNumber := t.seqNumber
      objId := (t.objId &&& ~~~extraObjectTypeMask) ||| (t.extraObjType <<< extraObjectTypeShift)
      chunkId := extraHeaderInfoFlag ||| t.extraParentId |||
        (if t.extraIsShrink ≠ 0 then extraShrinkFlag else 0) |||
        (if t.extraShadows ≠ 0 then extraShadowsFlag else 0)
      nBytes :=
        if t.extraObjType = objectTypeHardlink then t.extraEquivId
        else if t.extraObjType = objectTypeFile then t.extraLength
        else 0 }
  else ⟨t.seqNumber, t.objId, t.chunkId, t.nBytes⟩

def initTags : ExtTags :=
  ⟨0xaaaaaaaa, 0, 0, 0, 0, .unknown, 0, 0, 0, 0, 0, 0, 0, 0, 0, 0, 0, 0x55555555⟩

def unpackTagsOnly (ptt : TagsOnly) : ExtTags :=
  if ptt.seqNumber = 0xffffffff then initTags
  else
    let t := { initTags with
      chunkUsed := 1, objId := ptt.objId, chunkId := ptt.chunkId, nBytes := ptt.nBytes,
      seqNumber := ptt.seqNumber }
    if ptt.chunkId &&& extraHeaderInfoFlag ≠ 0 then
      let extraObjType := ptt.objId >>> extraObjectTypeShift
      { t with
        chunkId := 0
        nBytes := 0
        extraAvailable := 1
        extraParentId := ptt.chunkId &&& ~~~allExtraFlags
        extraIsShrink := if ptt.chunkId &&& extraShrinkFlag ≠ 0 then 1 else 0
        extraShadows := if ptt.chunkId &&& extraShadowsFlag ≠ 0 then 1 else 0
        extraObjType := extraObjType
        objId := t.objId &&& ~~~extraObjectTypeMask
        extraEquivId := if extraObjType = objectTypeHardlink then ptt.nBytes else 0
        extraLength := if extraObjType = objectTypeHardlink then 0 else ptt.nBytes }
    else t

/-- `sizeof (struct yaffs_packed_tags2_tags_only)` -/
def tagsSize : ℕ := 16

/-- The word that begins at the byte `j`. -/
def word (data : Data) (j : ℕ) : BitVec 32 := data (j + 3) ++ data (j + 2) ++ data (j + 1) ++ data j

def byteOfWord (x : BitVec 32) (k : ℕ) : BitVec 8 := (x >>> (8 * k)).setWidth 8

/-- The bytes of the structure. -/
def TagsOnly.bytes (t : TagsOnly) : Data := fun j =>
  byteOfWord ([t.seqNumber, t.objId, t.chunkId, t.nBytes].getD (j / 4) 0) (j % 4)

def TagsOnly.ofBytes (data : Data) : TagsOnly :=
  ⟨word data 0, word data 4, word data 8, word data 12⟩

/-- `yaffs_pack_tags2`; without `tagsEcc` the code stays what it was. -/
def packTags2 (t : ExtTags) (tagsEcc : Bool) (ecc : EccOther) : Packed :=
  ⟨packTagsOnly t, if tagsEcc then yaffsEccCalcOther (packTagsOnly t).bytes tagsSize else ecc⟩

def resultOf (result : ℤ) : EccResult :=
  if result = 0 then .noError
  else if result = 1 then .fixed
  else if result = -1 then .unfixed
  else .unknown

def unpackTags2 (pt : Packed) (tagsEcc : Bool) : ExtTags :=
  if pt.t.seqNumber ≠ 0xffffffff ∧ tagsEcc then
    let ecc := yaffsEccCalcOther pt.t.bytes tagsSize
    let r := yaffsEccCorrectOther pt.t.bytes tagsSize pt.ecc ecc
    { unpackTagsOnly (.ofBytes r.2.1) with eccResult := resultOf r.1 }
  else { unpackTagsOnly pt.t with eccResult := .noError }

end DfewOS.PackedTags
