import SchemaCatalog.Text
import SchemaCatalog.Types
import SchemaCatalog.Store
import SchemaCatalog.Watch
import SchemaCatalog.Cache
import SchemaCatalog.Versions
import SchemaCatalog.Refinement
import SchemaCatalog.Runs
import SchemaCatalog.Robustness
import SchemaCatalog.Coherence
import SchemaCatalog.Load
import SchemaCatalog.Replay
import SchemaCatalog.Listing
import SchemaCatalog.Interleaving
import SchemaCatalog.Settings
import SchemaCatalog.SettingsValidity
import SchemaCatalog.Select
import SchemaCatalog.FileCache
import SchemaCatalog.Aggregations
import SchemaCatalog.TopK
import SchemaCatalog.Readers
import SchemaCatalog.Organization
import SchemaCatalog.LocalStorage
import SchemaCatalog.Streams
