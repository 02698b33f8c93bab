import GrSatellites.Golay24.Codec
import GrSatellites.NanocomGolay.Lengths

/-!
# Fields that cannot be decoded

The block adds a length tag for every Golay field that has arrived, also for those that the
decoder gives up on.
-/

namespace GrSatellites.NanocomGolay

open Golay24 Transducer Weight

/-- The 24 bits of a field are within distance three of a codeword. -/
def NearCodeword (bits : List Byte) : Prop :=
  ∃ c, IsCodeword c ∧ weight (c ^^^ (golayField bits).setWidth 24) ≤ 3

/-- The decoder finds out. -/
theorem nearCodeword_iff {bits : List Byte} :
    NearCodeword bits ↔ (decodeGolay24 (((golayField bits).setWidth 24).setWidth 32)).isSome := by
  constructor
  · rintro ⟨c, hcodeword, hnear⟩
    rw [decodeGolay24_of_near hcodeword hnear, Option.isSome_some]
  · intro hsome
    obtain ⟨⟨corrected, errors⟩, hdecode⟩ := Option.isSome_iff_exists.mp hsome
    exact near_of_decodeGolay24 hdecode

instance (bits : List Byte) : Decidable (NearCodeword bits) := decidable_of_iff _ nearCodeword_iff.symm

/-- The start tags whose fields have arrived. -/
def arrived (settings : Settings) (tags : List Tag) (stream : List Byte) : List Tag :=
  tags.filter fun tag => tag.key = settings.golayStartTagKey ∧ tag.offset + kGolayN ≤ stream.length

/-- Length tags are added for the fields that can be decoded, one for each. -/
def TagsDecodable (settings : Settings) (tags : List Tag) (chunks : List (List Byte)) : Prop :=
  ((run (step settings tags) State.init chunks).2.flatMap Output.lengthTags).Perm
    (((arrived settings tags chunks.flatten).filter fun tag =>
      NearCodeword (fieldAt chunks.flatten tag.offset)).map fun tag =>
        settings.lengthTag tag.offset (fieldAt chunks.flatten tag.offset))

/-- **Decodable fields.** The length tags are as they should be exactly when every field that has
arrived can be decoded. -/
theorem tagsDecodable_iff (settings : Settings) (tags : List Tag) (chunks : List (List Byte)) :
    TagsDecodable settings tags chunks ↔
      ∀ tag ∈ arrived settings tags chunks.flatten,
        NearCodeword (fieldAt chunks.flatten tag.offset) := by
  have hperm := lengthTags_perm settings tags chunks
  rw [← arrived] at hperm
  constructor
  · intro htags
    have hlength := (hperm.symm.trans htags).length_eq
    rw [List.length_map, List.length_map] at hlength
    have hall := List.length_filter_eq_length_iff.mp hlength.symm
    exact fun tag htag => of_decide_eq_true (hall tag htag)
  · intro hall
    rw [TagsDecodable, List.filter_eq_self.mpr fun tag htag => decide_eq_true (hall tag htag)]
    exact hperm

/-- A field at distance four from the zero codeword. -/
theorem not_tagsDecodable_far :
    ¬ ∀ settings tags chunks, TagsDecodable settings tags chunks := by
  intro h
  have htag := h ⟨"start", "length"⟩ [⟨0, "start", .other "#t"⟩]
    [List.replicate 20 0 ++ [1, 1, 1, 1]]
  have hlength := htag.length_eq
  revert hlength
  decide +kernel

end GrSatellites.NanocomGolay
