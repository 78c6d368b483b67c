import Thylacine.NineP.WireBuild
import Thylacine.NineP.WireParse

/-!
# The Tag of a Request

A builder that comes through leaves a message whose header carries the tag it was given:
`Framed`. The tag is what the client keeps of a request, and what the server's reply repeats.
-/

namespace Thylacine

open ByteCodec

/-- A builder's messages **carry the tag**. -/
def Framed (build : UInt16 → Option Built) : Prop :=
  ∀ tag b, build tag = some b → ∃ size type, p9PeekHeader b.out = some (size, type, tag)

theorem put_of_p9PackField {f : Field CSlice} {c c' : Cursor} (h : p9PackField c f = some c') :
    ∃ bs, c.put bs = some c' := by
  cases f with
  | str s =>
    rw [p9PackField, p9PackStr] at h
    split_ifs at h
    exact ⟨_, h⟩
  | _ => exact ⟨_, h⟩

theorem peekHeader_of_buildFields {out : List UInt8} {type : UInt8} {tag : UInt16} {total : ℕ}
    {fields : List (Field CSlice)} {c : Cursor}
    (h : buildFields out type tag total fields = some c) :
    p9PeekHeader c.buf = some (UInt32.ofNat total, type, tag) := by
  rw [buildFields] at h
  split_ifs at h
  obtain ⟨c₁, hheader, hfields⟩ := Option.bind_eq_some_iff.mp h
  obtain ⟨body, hbody⟩ := Cursor.put_of_foldlM (fun _ _ _ => put_of_p9PackField) hfields
  have hput : (Cursor.start out).put (header (UInt32.ofNat total) type tag ++ body) = some c := by
    rw [← Cursor.put_bind_put]
    exact Option.bind_eq_some_iff.mpr ⟨c₁, hheader, hbody⟩
  rw [(Cursor.put_start hput).2.2, List.append_assoc, p9PeekHeader_append]

namespace Framed

variable {out : List UInt8} {type : UInt8} {total : ℕ} {fields : List (Field CSlice)}

theorem buildMsg : Framed fun tag => buildMsg out type tag total fields := by
  intro tag b h
  obtain ⟨c, hc, rfl⟩ := Option.map_eq_some_iff.mp h
  exact ⟨_, _, peekHeader_of_buildFields hc⟩

theorem buildFixed : Framed fun tag => buildFixed out type tag total fields := by
  intro tag b h
  obtain ⟨c, hc, rfl⟩ := Option.map_eq_some_iff.mp h
  exact ⟨_, _, peekHeader_of_buildFields hc⟩

/-- A check in front of a builder. -/
theorem check {p : Prop} [Decidable p] {build : UInt16 → Option Built} (h : Framed build) :
    Framed fun tag => if p then none else build tag := by
  intro tag b hb
  split_ifs at hb
  exact h tag b hb

theorem buildWalk {names : CNames} :
    Framed fun tag => buildWalk out type tag total fields names := by
  refine check (check fun tag b h => ?_)
  obtain ⟨bodyLen, -, h⟩ := Option.bind_eq_some_iff.mp h
  exact check buildMsg tag b h

end Framed

end Thylacine
